import Datacenter.IdMap
import Datacenter.Vm

/-!
# The ledger of a processor

The ledger is the state of a virtual machine scheduler, whatever its discipline. It holds everything
that decides how a processor's cores are shared: the requests of the registered virtual machines,
which of them are migrating, and the overhead of a migration. The shares themselves are not in it;
they are computed from the ledger, anew on every change (`Datacenter/Processor/Basic.lean`).

A machine counts as migrating if it is flagged as arriving or leaving, or if it was migrating when
its request was registered. It then receives only the fraction `1 - overhead` of its share.
-/

namespace Datacenter

/-- The request of a virtual machine. -/
structure Request (α : Type) where
  /-- The request of each virtual core. -/
  share : List α
  /-- Whether the machine was migrating when it asked. -/
  inMigration : Bool
deriving DecidableEq, Repr

/-- Requests and migration flags. -/
structure Ledger (α : Type) where
  /-- The requests of the registered machines. -/
  requests : IdMap (Request α)
  /-- The machines flagged as migrating to this processor. -/
  arriving : IdSet
  /-- The machines flagged as migrating away from this processor. -/
  leaving : IdSet
  /-- The fraction of its share that a migrating machine loses. -/
  overhead : α

namespace Ledger

variable {α : Type} [Scalar α]

/-- The ledger without requests. -/
def new (overhead : α) : Ledger α :=
  { requests := ∅, arriving := ∅, leaving := ∅, overhead := overhead }

/-- Whether a machine is registered. -/
def contains (l : Ledger α) (id : Nat) : Bool :=
  l.requests.contains id

/-- Whether a machine counts as migrating. -/
def isMigrating (l : Ledger α) (id : Nat) : Bool :=
  l.arriving.contains id || l.leaving.contains id ||
    ((l.requests.find? id).map (·.inMigration)).getD false

/-- The fraction of its share that a machine receives. -/
def factor (l : Ledger α) (id : Nat) : α :=
  if l.isMigrating id then 1 - l.overhead else 1

/-- Registers a request or replaces it. -/
def register (l : Ledger α) (vm : Vm α) (requested : List α) : Ledger α :=
  let request : Request α := { share := requested, inMigration := vm.isMigrating }
  { l with requests := l.requests.insert vm.id request }

/-- Forgets that a machine was migrating when it asked. -/
def settleRequest (l : Ledger α) (id : Nat) : Ledger α :=
  { l with requests := l.requests.modify id fun r => { r with inMigration := false } }

/-- Flags a machine as arriving. -/
def markArriving (l : Ledger α) (id : Nat) : Ledger α :=
  { l with arriving := l.arriving.add id }

/-- Flags a machine as leaving. -/
def markLeaving (l : Ledger α) (id : Nat) : Ledger α :=
  { l with leaving := l.leaving.add id }

/-- Takes the arriving flag back. -/
def unmarkArriving (l : Ledger α) (id : Nat) : Ledger α :=
  { l.settleRequest id with arriving := l.arriving.erase id }

/-- Takes the leaving flag back. -/
def unmarkLeaving (l : Ledger α) (id : Nat) : Ledger α :=
  { l.settleRequest id with leaving := l.leaving.erase id }

/-- Strikes a machine from the ledger. -/
def remove (l : Ledger α) (id : Nat) : Ledger α :=
  { l with
    requests := l.requests.erase id
    arriving := l.arriving.erase id
    leaving := l.leaving.erase id }

/-- Strikes all machines from the ledger. -/
def clear (l : Ledger α) : Ledger α :=
  new l.overhead

/-- The request of a machine; none if it is not registered. -/
def requestOf (l : Ledger α) (id : Nat) : List α :=
  ((l.requests.find? id).map (·.share)).getD []

/-- The request of all cores of a machine together. -/
def totalOf (l : Ledger α) (id : Nat) : α :=
  match l.requests.find? id with
  | some r => Scalar.sum r.share
  | none => 0

/-- The requests of all machines together. -/
def total (l : Ledger α) : α :=
  Scalar.sum (l.requests.values.map fun r => Scalar.sum r.share)

end Ledger

end Datacenter
