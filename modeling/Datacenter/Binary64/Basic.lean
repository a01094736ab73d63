import Datacenter.Scalar

/-!
# Binary floating point

`Binary64` is the type of double precision numbers, each given by its bit pattern. Its arithmetic
is that of `Float`; its two orders are read off the bits.

## Why not `Float` itself

`Float` knows a single number that is no value (a NaN), while the total order of the doubles tells
apart the ones with and without a sign: the former come before everything else, the latter after.
So the sign of a NaN is kept here, by the two rules that hardware follows:

* an operation on a NaN returns it as it is, the left operand's if there are two;
* an operation that has no value, such as `∞ - ∞`, `0 * ∞` or `√(-1)`, returns the NaN with a
  sign (`Binary64.invalid`).

## The orders

`place` moves the patterns to where their order as words is the total order of the numbers: the
patterns without a sign go to the upper half, those with a sign go to the lower half and are turned
round. That puts `-0` just below `0`, and the NaNs outside of everything else. `rank` lets the two
zeros share one place; the order of the values is the order of the ranks on everything that is not
a NaN.
-/

namespace Datacenter

/-- A double precision number, given by its bits: a sign, eleven bits of exponent and fifty-two of
fraction. -/
structure Binary64 where
  /-- The bit pattern. -/
  bits : UInt64
deriving DecidableEq, Repr, Inhabited

namespace Binary64

/-! ## Reading the pattern -/

/-- The pattern with the sign bit alone. -/
def signBit : UInt64 :=
  0x8000000000000000

/-- Whether the sign bit is set. -/
def isNegative (x : Binary64) : Bool :=
  signBit ≤ x.bits

/-- The pattern without its sign. -/
def magnitude (x : Binary64) : UInt64 :=
  if x.isNegative then x.bits - signBit else x.bits

/-- The magnitude of the infinities: exponent bits all set, fraction bits all clear. -/
def infiniteMagnitude : UInt64 :=
  0x7FF0000000000000

/-- Whether the number is no value at all. -/
def isNaN (x : Binary64) : Bool :=
  infiniteMagnitude < x.magnitude

/-- Whether the number is a finite value. -/
def isFinite (x : Binary64) : Bool :=
  x.magnitude < infiniteMagnitude

/-- The position in the total order, where `-0` comes just before `0`, a NaN with a sign before
all values and one without after them. -/
def place (x : Binary64) : UInt64 :=
  if x.isNegative then ~~~x.bits else x.bits + signBit

/-- The position among the values; both zeros have that of `0`. -/
def rank (x : Binary64) : UInt64 :=
  if x.magnitude = 0 then signBit else x.place

/-! ## Particular numbers -/

/-- The NaN without a sign, the one that texts spell. -/
def nan : Binary64 := ⟨0x7FF8000000000000⟩

/-- The NaN with a sign, the result of an operation that has no value. -/
def invalid : Binary64 := ⟨0xFFF8000000000000⟩

/-- Positive infinity. -/
def infinity : Binary64 := ⟨0x7FF0000000000000⟩

/-! ## Arithmetic -/

/-- The number as a `Float`, for its arithmetic. -/
def toFloat (x : Binary64) : Float :=
  Float.ofBits x.bits

/-- The result of an operation none of whose operands is a NaN. -/
def ofResult (f : Float) : Binary64 :=
  if f.isNaN then invalid else ⟨f.toBits⟩

/-- Lifts an operation of two operands, handing NaNs on. -/
@[inline] def lift₂ (op : Float → Float → Float) (x y : Binary64) : Binary64 :=
  if x.isNaN then x
  else if y.isNaN then y
  else ofResult (op x.toFloat y.toFloat)

/-- Changes the sign, of a NaN too. -/
def neg (x : Binary64) : Binary64 :=
  ⟨x.bits ^^^ signBit⟩

/-- Drops the sign, of a NaN too. -/
def abs (x : Binary64) : Binary64 :=
  ⟨x.magnitude⟩

/-- The square root, rounded to nearest. -/
def sqrt (x : Binary64) : Binary64 :=
  if x.isNaN then x else ofResult x.toFloat.sqrt

/-- Drops the fraction. Negative numbers and NaNs give zero, numbers from `2 ^ 64` on the largest
natural number below it. -/
def truncate (x : Binary64) : Nat :=
  x.toFloat.toUInt64.toNat

/-- The double nearest to `mantissa * 10 ^ exponent`, or to `mantissa / 10 ^ exponent` if
`isFraction` holds. -/
def ofDecimal (mantissa : Nat) (isFraction : Bool) (exponent : Nat) : Binary64 :=
  ⟨(Float.ofScientific mantissa isFraction exponent).toBits⟩

/-! ## The instance -/

instance : Add Binary64 := ⟨lift₂ (· + ·)⟩
instance : Sub Binary64 := ⟨lift₂ (· - ·)⟩
instance : Mul Binary64 := ⟨lift₂ (· * ·)⟩
instance : Div Binary64 := ⟨lift₂ (· / ·)⟩
instance : Neg Binary64 := ⟨neg⟩
instance : NatCast Binary64 := ⟨fun n => ⟨(Float.ofNat n).toBits⟩⟩
instance : OfScientific Binary64 := ⟨ofDecimal⟩

instance : LT Binary64 := ⟨fun x y => x.isNaN = false ∧ y.isNaN = false ∧ x.rank < y.rank⟩
instance : LE Binary64 := ⟨fun x y => x.isNaN = false ∧ y.isNaN = false ∧ x.rank ≤ y.rank⟩
instance : BEq Binary64 := ⟨fun x y => !x.isNaN && !y.isNaN && x.rank == y.rank⟩
instance : Ord Binary64 := ⟨fun x y => compare x.place y.place⟩

instance (x y : Binary64) : Decidable (x < y) :=
  inferInstanceAs (Decidable (x.isNaN = false ∧ y.isNaN = false ∧ x.rank < y.rank))

instance (x y : Binary64) : Decidable (x ≤ y) :=
  inferInstanceAs (Decidable (x.isNaN = false ∧ y.isNaN = false ∧ x.rank ≤ y.rank))

instance : Scalar Binary64 where
  decLt := inferInstance
  decLe := inferInstance
  abs := abs
  sqrt := sqrt
  truncate := truncate
  isFinite := isFinite

end Binary64

end Datacenter
