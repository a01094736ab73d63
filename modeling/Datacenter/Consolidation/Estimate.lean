import Datacenter.Host

/-!
# Estimates

Consolidation plans moves without making them. It works on estimates of the hosts: what is known of
each, changed as if the moves planned so far had been made already. Only what decides about further
moves is estimated; in particular the shares of the machines are not computed again.
-/

namespace Datacenter

/-- What consolidation knows of a host. -/
structure Estimate (α : Type) where
  /-- The id of the host. -/
  id : Nat
  /-- Whether the host is switched on. -/
  isActive : Bool
  /-- Whether every virtual core holds a core of its own. -/
  isDedicated : Bool
  /-- The total capacity. -/
  capacity : α
  /-- The capacity of the fastest core. -/
  fastest : α
  /-- The number of working cores. -/
  working : Nat
  /-- The number of free cores. -/
  free : Nat
  /-- The capacity given to machines. -/
  allocated : α
  /-- What machines ask for. -/
  load : α
  /-- The memory that is left. -/
  ram : Nat
  /-- The bandwidth that is left. -/
  bandwidth : Nat
  /-- The storage that is left. -/
  storage : Nat
  /-- The utilization above which the host is overloaded. -/
  threshold : α
  /-- Whether a migration from or to the host is under way. -/
  hasMigrations : Bool

namespace Estimate

variable {α : Type} [Scalar α]

/-- The rounding error that is forgiven where capacities are compared. -/
def tolerance : α := 1e-9

/-- The estimate of a host as it is. -/
def ofHost (h : Host α) (threshold : α) : Except Fault (Estimate α) := do
  let ram ← h.availableRam
  let bandwidth ← h.availableBandwidth
  let storage ← h.availableStorage
  return {
    id := h.id
    isActive := h.isActive
    isDedicated := h.processor.isDedicated
    capacity := h.processor.capacity
    fastest := h.processor.fastest
    working := h.processor.workingCount
    free := h.processor.freeCount
    allocated := h.processor.totalAllocated
    load := h.load
    ram := ram
    bandwidth := bandwidth
    storage := storage
    threshold := threshold
    hasMigrations := h.hasMigrations }

/-- The ratio of the load to the capacity. -/
def utilization (e : Estimate α) : α :=
  if e.capacity == 0 then 0 else e.load / e.capacity

/-- Whether the utilization exceeds the threshold of the host. -/
def isOverloaded (e : Estimate α) : Bool :=
  e.threshold < e.utilization

/-- Whether the utilization lies below a threshold. -/
def isUnderloaded (e : Estimate α) (lower : α) : Bool :=
  e.utilization < lower

/-- Whether there is room for the peak request of a machine. -/
def hasRoom (e : Estimate α) (vm : Vm α) : Bool :=
  if e.isDedicated then vm.vcpus ≤ e.free
  else vm.peak ≤ e.capacity - e.allocated + tolerance

/-- Whether a machine with a load fits on the host and does not overload it. -/
def canAccept (e : Estimate α) (vm : Vm α) (load : α) : Bool :=
  vm.vcpus ≤ e.working
    && vm.speed ≤ e.fastest
    && e.hasRoom vm
    && vm.ram ≤ e.ram
    && vm.bandwidth ≤ e.bandwidth
    && vm.storage ≤ e.storage
    && 0 < e.capacity
    && (e.load + load) / e.capacity ≤ e.threshold

/-- The estimate once a machine with a load has come. -/
def add (e : Estimate α) (vm : Vm α) (load : α) : Estimate α :=
  { e with
    allocated := e.allocated + vm.peak
    load := e.load + load
    free := e.free - vm.vcpus
    ram := e.ram - vm.ram
    bandwidth := e.bandwidth - vm.bandwidth
    storage := e.storage - vm.storage }

/-- The estimate once a machine has left, which releases what its processor has given it. Under time
sharing a core that others use too does not become free. -/
def remove (e : Estimate α) (vm : Vm α) (processor : Processor α) : Estimate α :=
  { e with
    allocated := e.allocated - processor.totalAllocatedTo vm.id
    load := e.load - processor.ledger.totalOf vm.id
    free := if e.isDedicated then min (e.free + vm.vcpus) e.working else e.free
    ram := e.ram + vm.ram
    bandwidth := e.bandwidth + vm.bandwidth
    storage := e.storage + vm.storage }

end Estimate

end Datacenter
