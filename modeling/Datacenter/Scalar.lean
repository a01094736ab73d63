/-!
# The numbers a datacenter is measured in

Speeds, loads, utilizations and times are numbers of one kind. The library is written over any
type of numbers with the operations of `Scalar`, so that the same definitions run on binary
floating point (`Datacenter/Binary64/Basic.lean`) and can be reasoned about over exact fields.

## What a `Scalar` promises

Nothing but the operations: no law is assumed, because floating point keeps few of them. Two
orders are told apart.

* `<`, `≤` and `==` are the orders of the values. A number that is no value at all is neither
  below, above nor equal to anything, itself included.
* `compare` is a total order of the representations, used wherever numbers are sorted. It refines
  the order of the values and also ranks representations of one value, such as the two zeros.

`larger`, `smaller` and `clamp` spell out what happens to a number that is no value: the first two
ignore it, the last one keeps it.
-/

namespace Datacenter

/-- A type of numbers with the arithmetic, the two orders and the roundings the library needs. -/
class Scalar (α : Type) extends Add α, Sub α, Mul α, Div α, Neg α, NatCast α, OfScientific α,
    LT α, LE α, BEq α, Ord α where
  /-- Whether one value is below another one can be decided. -/
  decLt : DecidableLT α
  /-- Whether one value is at most another one can be decided. -/
  decLe : DecidableLE α
  /-- The distance from zero. -/
  abs : α → α
  /-- The square root. -/
  sqrt : α → α
  /-- The natural number that is left when the fraction of a non-negative number is dropped. -/
  truncate : α → Nat
  /-- Whether the number is a finite value. -/
  isFinite : α → Bool

namespace Scalar

attribute [reducible, instance] Scalar.decLt Scalar.decLe

variable {α : Type} [Scalar α]

/-- Numerals denote the images of the natural numbers. -/
instance (priority := low) instOfNat (n : Nat) : OfNat α n := ⟨(n : α)⟩

/-- The larger of two numbers; a number that is no value gives way to the other one. -/
def larger (x y : α) : α :=
  if x < y || !(x == x) then y else x

/-- The smaller of two numbers; a number that is no value gives way to the other one. -/
def smaller (x y : α) : α :=
  if y < x || !(x == x) then y else x

/-- Moves `x` into the interval from `lo` to `hi`; a number that is no value stays as it is. -/
def clamp (x lo hi : α) : α :=
  let x := if x < lo then lo else x
  if hi < x then hi else x

/-- The sum from left to right. It starts from negative zero, the one number that leaves every
other one unchanged when it is added, so that a sum of negative zeros is negative zero. -/
def sum (xs : List α) : α :=
  xs.foldl (· + ·) (-0)

/-- The largest of some numbers and zero. -/
def largest (xs : List α) : α :=
  xs.foldl larger 0

end Scalar

/-- Numbers with a written form: what settings spell out and what messages quote. -/
class TextScalar (α : Type) extends Scalar α where
  /-- The number a text spells, if it spells one. -/
  ofText? : String → Option α
  /-- The text of a number. -/
  toText : α → String

end Datacenter
