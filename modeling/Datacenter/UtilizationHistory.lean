import Datacenter.Fault
import Datacenter.Scalar

/-!
# Utilization histories

A history keeps the latest samples of a utilization, each with its time, up to a limit. A sample for
the time of the latest one replaces its value; any other sample is appended, and the oldest ones
beyond the limit are dropped.
-/

namespace Datacenter

/-- The latest samples of a utilization. -/
structure UtilizationHistory (α : Type) where
  /-- Times and values, the latest sample first. -/
  newestFirst : List (α × α)
  /-- The largest number of samples kept. -/
  limit : Nat
deriving DecidableEq, Repr

namespace UtilizationHistory

variable {α : Type} [Scalar α]

/-- The number of samples kept where nothing else is said. -/
def defaultSize : Nat := 30

/-- The history without samples. At least one sample is kept, whatever the size. -/
def empty (size : Nat) : UtilizationHistory α :=
  { newestFirst := [], limit := max size 1 }

/-- The largest size for which room can be set aside: sixteen bytes a sample in half of the address
space. -/
def largestSize : Nat := 1 <<< 59 - 1

/-- Faults if no room can be set aside for a history of this size. -/
def checkSize (size : Nat) : Except Fault Unit :=
  if size ≤ largestSize then .ok () else .error .overflow

/-- The history without samples, if room can be set aside for it. -/
def create (size : Nat) : Except Fault (UtilizationHistory α) := do
  checkSize size
  return empty size

omit [Scalar α] in
theorem create_eq_ok {size : Nat} {h : UtilizationHistory α} :
    create size = .ok h ↔ size ≤ largestSize ∧ h = empty size := by
  unfold create checkSize
  split <;> simp [*, bind, Except.bind, pure, Except.pure, eq_comm]

/-- Records a sample. -/
def add (h : UtilizationHistory α) (time value : α) : UtilizationHistory α :=
  match h.newestFirst with
  | [] => { h with newestFirst := [(time, value)].take h.limit }
  | (t, v) :: older =>
    if t == time then { h with newestFirst := (t, value) :: older }
    else { h with newestFirst := ((time, value) :: (t, v) :: older).take h.limit }

/-- The number of samples. -/
def size (h : UtilizationHistory α) : Nat :=
  h.newestFirst.length

/-- Whether nothing has been recorded. -/
def isEmpty (h : UtilizationHistory α) : Bool :=
  h.newestFirst.isEmpty

/-- The value recorded last. -/
def latest? (h : UtilizationHistory α) : Option α :=
  h.newestFirst.head?.map Prod.snd

/-- The values, the latest one first. -/
def values (h : UtilizationHistory α) : List α :=
  h.newestFirst.map Prod.snd

/-- The samples, the oldest one first. -/
def samples (h : UtilizationHistory α) : List (α × α) :=
  h.newestFirst.reverse

end UtilizationHistory

end Datacenter
