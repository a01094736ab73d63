import Mathlib.Analysis.Real.Sqrt
import Datacenter.Scalar

/-!
# Exact numbers with roots

The real numbers as the numbers a datacenter is measured in. Unlike over the rational numbers, square
roots are exact too, so what is computed with lengths can be compared with what is said of them.
Nothing can be evaluated over these numbers.
-/

namespace Datacenter

noncomputable instance : Scalar ℝ where
  compare x y := compareOfLessAndEq x y
  decLt := inferInstance
  decLe := inferInstance
  abs x := |x|
  sqrt := Real.sqrt
  truncate x := ⌊x⌋₊
  isFinite _ := true

namespace RealNumbers

/-- The numeral of a scalar is the image of a natural number. -/
theorem scalar_zero : @OfNat.ofNat ℝ 0 (Scalar.instOfNat 0) = 0 :=
  Nat.cast_zero

theorem scalar_one : @OfNat.ofNat ℝ 1 (Scalar.instOfNat 1) = 1 :=
  Nat.cast_one

theorem sum_eq (xs : List ℝ) : Scalar.sum xs = xs.sum := by
  show xs.foldl (· + ·) (-((0 : ℕ) : ℝ)) = xs.sum
  rw [Nat.cast_zero, neg_zero, List.sum_eq_foldl]

end RealNumbers

end Datacenter
