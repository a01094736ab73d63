import Datacenter.Fault
import Datacenter.Processor.SpaceShared
import Datacenter.Processor.TimeShared

/-!
# Processors

A processor is the list of a host's cores together with the scheduler that divides them among
virtual machines: the state of the scheduler (`Datacenter/Processor/Ledger.lean`), and the
discipline by which it works, time sharing or space sharing. It is the only thing that changes what
is allocated on the cores.

Whenever the ledger, the discipline's assignment or the working order of a core changes, the shares
of all registered machines are computed anew by `Processor.reshare`. So the shares depend on what is
registered only and not on how it came about.

Admission answers with the processor that has admitted the machine, or with nothing at all: a
refusal leaves no trace.
-/

namespace Datacenter

/-- How virtual machines share the cores. -/
inductive Discipline where
  /-- All machines share all cores. -/
  | timeShared
  /-- Every virtual core has a core of its own. -/
  | spaceShared (assignment : SpaceShared.Assignment)
deriving DecidableEq

/-- The cores of a host and the virtual machines that share them. -/
structure Processor (α : Type) where
  /-- The cores. -/
  cores : List (Core α)
  /-- What has been asked for. -/
  ledger : Ledger α
  /-- What has been given to each machine, by virtual core. -/
  allocations : IdMap (List α)
  /-- How the cores are shared. -/
  discipline : Discipline

namespace Processor

variable {α : Type} [Scalar α]

/-- A processor without machines. -/
def new (cores : List (Core α)) (discipline : Discipline) (overhead : α) : Processor α :=
  { cores := cores, ledger := .new overhead, allocations := ∅, discipline := discipline }

/-- Whether every virtual core holds a core of its own. -/
def isDedicated (p : Processor α) : Bool :=
  match p.discipline with
  | .timeShared => false
  | .spaceShared _ => true

/-! ## Sharing -/

/-- Computes the shares of all registered machines anew. Assignments of machines that are no longer
registered end. -/
def reshare (p : Processor α) : Processor α :=
  match p.discipline with
  | .timeShared =>
    let (allocations, cores) := TimeShared.share p.cores p.ledger
    { p with cores := cores, allocations := allocations }
  | .spaceShared assignment =>
    let assignment := assignment.filter fun id _ => p.ledger.contains id
    let (allocations, cores) := SpaceShared.share p.cores p.ledger assignment
    { p with cores := cores, allocations := allocations, discipline := .spaceShared assignment }

/-- Replaces the ledger and computes the shares anew. -/
def withLedger (p : Processor α) (ledger : Ledger α) : Processor α :=
  { p with ledger := ledger }.reshare

/-- Whether the cores can serve the peak request of a machine beside the present ones. -/
def isSuitable (p : Processor α) (vm : Vm α) : Bool :=
  match p.discipline with
  | .timeShared => TimeShared.isSuitable p.cores vm
  | .spaceShared assignment => SpaceShared.isSuitable p.cores assignment vm

/-- The discipline after a request of a machine has been admitted, unless it is refused. -/
def admission? (p : Processor α) (vm : Vm α) (requested : List α) : Option Discipline :=
  match p.discipline with
  | .timeShared => if TimeShared.admits p.cores vm requested then some .timeShared else none
  | .spaceShared assignment =>
    (SpaceShared.admit? p.cores assignment vm.id requested).map .spaceShared

/-- Registers a request of a machine or replaces it, unless it is refused. An admitted machine may
receive less than it asks for. -/
def admit? (p : Processor α) (vm : Vm α) (requested : List α) : Option (Processor α) :=
  (p.admission? vm requested).map fun discipline =>
    { p with discipline := discipline }.withLedger (p.ledger.register vm requested)

/-- Releases what a machine holds. -/
def release (p : Processor α) (id : Nat) : Processor α :=
  p.withLedger (p.ledger.remove id)

/-- Releases what all machines hold. -/
def releaseAll (p : Processor α) : Processor α :=
  p.withLedger p.ledger.clear

/-- Flags a machine as arriving. -/
def markArriving (p : Processor α) (id : Nat) : Processor α :=
  if p.ledger.arriving.contains id then p else p.withLedger (p.ledger.markArriving id)

/-- Flags a machine as leaving. -/
def markLeaving (p : Processor α) (id : Nat) : Processor α :=
  if p.ledger.leaving.contains id then p else p.withLedger (p.ledger.markLeaving id)

/-- Takes the arriving flag of a machine back. -/
def unmarkArriving (p : Processor α) (id : Nat) : Processor α :=
  p.withLedger (p.ledger.unmarkArriving id)

/-- Takes the leaving flag of a machine back. -/
def unmarkLeaving (p : Processor α) (id : Nat) : Processor α :=
  p.withLedger (p.ledger.unmarkLeaving id)

/-- Puts a core out of order. -/
def failCore (p : Processor α) (i : Nat) : Except Fault (Processor α) :=
  if i < p.cores.length then .ok { p with cores := p.cores.modify i (·.fail) }.reshare
  else .error .outOfRange

/-! ## Reading off -/

/-- The capacity that belongs to no machine. -/
def available (p : Processor α) : α :=
  match p.discipline with
  | .timeShared => Scalar.sum (p.cores.map (·.available))
  | .spaceShared assignment => Scalar.sum (SpaceShared.freeCapacities p.cores assignment)

/-- The largest capacity that is available on one core. -/
def maxAvailable (p : Processor α) : α :=
  match p.discipline with
  | .timeShared => Scalar.largest (p.cores.map (·.available))
  | .spaceShared assignment => Scalar.largest (SpaceShared.freeCapacities p.cores assignment)

/-- What a machine has received, by virtual core. -/
def allocatedTo (p : Processor α) (id : Nat) : List α :=
  (p.allocations.find? id).getD []

/-- What a machine has received in all. -/
def totalAllocatedTo (p : Processor α) (id : Nat) : α :=
  match p.allocations.find? id with
  | some share => Scalar.sum share
  | none => 0

/-- What all machines have received. -/
def totalAllocated (p : Processor α) : α :=
  Scalar.sum (p.allocations.values.map Scalar.sum)

/-- The number of working cores. -/
def workingCount (p : Processor α) : Nat :=
  (Core.working p.cores).length

/-- The number of free cores. -/
def freeCount (p : Processor α) : Nat :=
  (p.cores.filter (·.isFree)).length

/-- The number of busy cores. -/
def busyCount (p : Processor α) : Nat :=
  (p.cores.filter (·.status == .busy)).length

/-- The total capacity of the working cores. -/
def capacity (p : Processor α) : α :=
  TimeShared.capacity p.cores

/-- The capacity of the fastest working core. -/
def fastest (p : Processor α) : α :=
  TimeShared.fastest p.cores

end Processor

end Datacenter
