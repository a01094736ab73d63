/-!
# Faults

A *fault* is a request that cannot be carried out at all: it names something that does not exist,
or it leaves the range of the quantities a datacenter counts in. A fault is not a refusal. A
refused request leaves an answer behind and the datacenter goes on; after a fault there is no
result to go on with. Operations that can fault answer in `Except Fault`.
-/

namespace Datacenter

/-- Why a request could not be carried out. -/
inductive Fault where
  /-- No virtual machine is registered under this id. -/
  | unknownVm (id : Nat)
  /-- No host has this id. -/
  | unknownHost (id : Nat)
  /-- A position lies outside of the list it points into. -/
  | outOfRange
  /-- A quantity leaves the range of sixty-four bits. -/
  | overflow
deriving DecidableEq, Repr

namespace Fault

/-- The text of a fault, if there is more to say than that it happened. -/
def message? : Fault → Option String
  | unknownVm id => some ("unknown vm " ++ id.repr)
  | unknownHost id => some ("unknown host " ++ id.repr)
  | outOfRange => none
  | overflow => none

end Fault

/-- The largest quantity of memory, bandwidth or storage, and the largest size. -/
def maxQuantity : Nat := UInt64.size - 1

/-- The largest id and the largest number of cores. -/
def maxCount : Nat := UInt32.size - 1

/-- The sum of some quantities, which has to be a quantity itself. -/
def sumQuantities (qs : List Nat) : Except Fault Nat :=
  let total := qs.foldr (· + ·) 0
  if total ≤ maxQuantity then .ok total else .error .overflow

/-- The element at a position. -/
def elementAt {β : Type} (xs : List β) (i : Nat) : Except Fault β :=
  match xs[i]? with
  | some x => .ok x
  | none => .error .outOfRange

end Datacenter
