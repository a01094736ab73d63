import Datacenter.Processor.Basic

/-!
# Hosts

A host has a processor, on which virtual machines share or hold cores, and memory, bandwidth and
storage, which are provisioned to machines in whole units and never shared. It knows the ids of the
machines that reside on it, those on their way out included, and of the machines on their way in;
the machines themselves are kept by the pool.

`Host.check` tells whether a machine can be created on a host, and if not, which resource comes
short first (`Verdict`, the verdict on an allocation).
-/

namespace Datacenter

/-- Memory, bandwidth and storage set aside for a machine. -/
structure Provision where
  /-- The memory. -/
  ram : Nat
  /-- The bandwidth. -/
  bandwidth : Nat
  /-- The storage. -/
  storage : Nat
deriving DecidableEq, Repr

namespace Provision

/-- Nothing. -/
def none : Provision := { ram := 0, bandwidth := 0, storage := 0 }

/-- What a machine needs. -/
def of {α : Type} (vm : Vm α) : Provision :=
  { ram := vm.ram, bandwidth := vm.bandwidth, storage := vm.storage }

end Provision

/-- Whether a machine fits on a host, or what comes short. -/
inductive Verdict where
  /-- There are not enough working cores. -/
  | notEnoughCores
  /-- There is not enough speed. -/
  | notEnoughSpeed
  /-- There is not enough memory. -/
  | notEnoughRam
  /-- There is not enough bandwidth. -/
  | notEnoughBandwidth
  /-- There is not enough storage. -/
  | notEnoughStorage
  /-- The machine fits. -/
  | success
deriving DecidableEq, Repr

/-- A host. -/
structure Host (α : Type) where
  /-- The id, which is the position in the pool. -/
  id : Nat
  /-- The name. -/
  name : String
  /-- The cores and how they are shared. -/
  processor : Processor α
  /-- The memory. -/
  ram : Nat
  /-- The bandwidth. -/
  bandwidth : Nat
  /-- The storage. -/
  storage : Nat
  /-- What is set aside for each machine. -/
  provisions : IdMap Provision
  /-- The machines that reside here. -/
  residents : IdSet
  /-- The machines on their way here. -/
  incoming : IdSet
  /-- Whether the host is switched on. -/
  isActive : Bool
  /-- The latest samples of the utilization. -/
  history : UtilizationHistory α

namespace Host

variable {α : Type} [Scalar α]

/-- A host that is switched on and in no pool yet. -/
def new (name : String) (processor : Processor α) (ram bandwidth storage : Nat) : Host α where
  id := 0
  name := name
  processor := processor
  ram := ram
  bandwidth := bandwidth
  storage := storage
  provisions := ∅
  residents := ∅
  incoming := ∅
  isActive := true
  history := .empty UtilizationHistory.defaultSize

/-- The machines that are leaving. -/
def outgoing (h : Host α) : IdSet :=
  h.processor.ledger.leaving

/-- Whether a migration from or to the host is under way. -/
def hasMigrations (h : Host α) : Bool :=
  !h.incoming.isEmpty || !h.outgoing.isEmpty

/-- Whether no machine resides here or is on its way. -/
def isEmpty (h : Host α) : Bool :=
  h.residents.isEmpty && h.incoming.isEmpty

/-- What all machines ask for at present. -/
def load (h : Host α) : α :=
  h.processor.ledger.total

/-- The ratio of the load to the capacity, which is above one on an oversubscribed host. -/
def utilization (h : Host α) : α :=
  if h.processor.capacity == 0 then 0 else h.load / h.processor.capacity

/-! ## Whole-unit resources -/

/-- What is left of a resource once everything set aside is taken off. -/
def left (h : Host α) (total : Nat) (part : Provision → Nat) : Except Fault Nat := do
  let used ← sumQuantities (h.provisions.values.map part)
  return total - used

/-- The memory that is left. -/
def availableRam (h : Host α) : Except Fault Nat := h.left h.ram (·.ram)

/-- The bandwidth that is left. -/
def availableBandwidth (h : Host α) : Except Fault Nat := h.left h.bandwidth (·.bandwidth)

/-- The storage that is left. -/
def availableStorage (h : Host α) : Except Fault Nat := h.left h.storage (·.storage)

/-- What is set aside for a machine. -/
def provisionOf (h : Host α) (id : Nat) : Provision :=
  (h.provisions.find? id).getD .none

/-- Whether a machine can be created here. What is set aside for it already counts as left. -/
def check (h : Host α) (vm : Vm α) : Except Fault Verdict := do
  let own := h.provisionOf vm.id
  if h.processor.workingCount < vm.vcpus then return .notEnoughCores
  if !h.processor.isSuitable vm then return .notEnoughSpeed
  if (← h.availableRam) + own.ram < vm.ram then return .notEnoughRam
  if (← h.availableBandwidth) + own.bandwidth < vm.bandwidth then return .notEnoughBandwidth
  if (← h.availableStorage) + own.storage < vm.storage then return .notEnoughStorage
  return .success

/-- Whether a machine fits. -/
def isSuitable (h : Host α) (vm : Vm α) : Except Fault Bool := do
  return (← h.check vm) == .success

/-! ## Changes -/

/-- Registers the current request of a machine, unless the processor refuses it. -/
def admit? (h : Host α) (vm : Vm α) (requested : List α) : Option (Host α) :=
  (h.processor.admit? vm requested).map fun p => { h with processor := p }

/-- Registers the current request of a machine; a refusal leaves everything as it is. -/
def update (h : Host α) (vm : Vm α) (requested : List α) : Host α :=
  (h.admit? vm requested).getD h

/-- Releases the cores that all machines hold. -/
def releaseAll (h : Host α) : Host α :=
  { h with processor := h.processor.releaseAll }

/-- Makes a machine resident, unless the processor refuses it. The host is switched on. -/
def create? (h : Host α) (vm : Vm α) (requested : List α) : Option (Host α) :=
  (h.admit? vm requested).map fun h =>
    { h with
      provisions := h.provisions.insert vm.id (.of vm)
      residents := h.residents.add vm.id
      isActive := true }

/-- Sets resources aside for a machine on its way here: whether the processor admits it, and the
host after it. The host is switched on. A machine that is refused leaves nothing behind. -/
def expect (h : Host α) (vm : Vm α) (requested : List α) : Bool × Host α :=
  let flagged := { h with processor := h.processor.markArriving vm.id }
  match flagged.admit? vm requested with
  | some h =>
    (true, { h with
      provisions := h.provisions.insert vm.id (.of vm)
      incoming := h.incoming.add vm.id
      isActive := true })
  | none => (false, { flagged with processor := flagged.processor.release vm.id })

/-- Marks a machine as leaving. -/
def markLeaving (h : Host α) (id : Nat) : Host α :=
  { h with processor := h.processor.markLeaving id }

/-- Makes a machine on its way here resident. -/
def receive (h : Host α) (id : Nat) : Host α :=
  if h.incoming.contains id then
    { h with
      incoming := h.incoming.erase id
      residents := h.residents.add id
      processor := h.processor.unmarkArriving id }
  else h

/-- Releases everything that a machine holds here. -/
def remove (h : Host α) (id : Nat) : Host α :=
  { h with
    processor := h.processor.release id
    provisions := h.provisions.erase id
    residents := h.residents.erase id
    incoming := h.incoming.erase id }

/-- Adapts what is set aside for a machine to its size. -/
def reprovision (h : Host α) (vm : Vm α) : Host α :=
  if h.provisions.contains vm.id then
    { h with provisions := h.provisions.insert vm.id (.of vm) }
  else h

/-- Puts a core out of order. -/
def failCore (h : Host α) (i : Nat) : Except Fault (Host α) := do
  let p ← h.processor.failCore i
  return { h with processor := p }

/-- Starts with a history. -/
def withHistory (h : Host α) (history : UtilizationHistory α) : Host α :=
  { h with history := history }

/-- Records the current utilization, or one if it is above one. -/
def recordUtilization (h : Host α) (time : α) : Host α :=
  { h with history := h.history.add time (Scalar.smaller h.utilization 1) }

end Host

end Datacenter
