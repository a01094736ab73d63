import Datacenter.Scalar
import Mathlib.Algebra.Order.BigOperators.Group.List
import Mathlib.Algebra.Order.Field.Rat
import Mathlib.Data.Rat.Sqrt
import Mathlib.Tactic.Linarith

/-!
# Exact numbers

The rational numbers as the numbers a datacenter is measured in. Sums and products are exact, so
what is added to an amount and taken from it again leaves it as it was. The square root is the one
operation that is not exact; it serves to compare correlations only.
-/

namespace Datacenter

instance : Scalar ℚ where
  compare x y := compareOfLessAndEq x y
  decLt := inferInstance
  decLe := inferInstance
  abs x := |x|
  sqrt := Rat.sqrt
  truncate x := x.floor.toNat
  isFinite _ := true

namespace Rational

theorem sum_eq (xs : List ℚ) : Scalar.sum xs = xs.sum := by
  have hfold : ∀ (ys : List ℚ) (x : ℚ), ys.foldl (· + ·) x = x + ys.sum := by
    intro ys
    induction ys with
    | nil => simp
    | cons y ys ih =>
      intro x
      rw [List.foldl_cons, ih, List.sum_cons, add_assoc]
  show xs.foldl (· + ·) (-((0 : ℕ) : ℚ)) = xs.sum
  rw [hfold]
  simp

theorem larger_eq (x y : ℚ) : Scalar.larger x y = max x y := by
  unfold Scalar.larger
  rw [beq_self_eq_true, Bool.not_true, Bool.or_false]
  split
  · rename_i h
    exact (max_eq_right (of_decide_eq_true h).le).symm
  · rename_i h
    exact (max_eq_left (not_lt.mp fun hlt => h (decide_eq_true hlt))).symm

theorem smaller_eq (x y : ℚ) : Scalar.smaller x y = min x y := by
  unfold Scalar.smaller
  rw [beq_self_eq_true, Bool.not_true, Bool.or_false]
  split
  · rename_i h
    exact (min_eq_right (of_decide_eq_true h).le).symm
  · rename_i h
    exact (min_eq_left (not_lt.mp fun hlt => h (decide_eq_true hlt))).symm

theorem clamp_eq (x lo hi : ℚ) : Scalar.clamp x lo hi = min hi (max lo x) := by
  have hlow : (if x < lo then lo else x) = max lo x := by
    split
    · exact (max_eq_left (le_of_lt ‹_›)).symm
    · exact (max_eq_right (not_lt.mp ‹_›)).symm
  show (if hi < (if x < lo then lo else x) then hi else if x < lo then lo else x) = _
  rw [hlow]
  split
  · exact (min_eq_left (le_of_lt ‹_›)).symm
  · exact (min_eq_right (not_lt.mp ‹_›)).symm

/-- A fraction of something is not negative. -/
theorem clamp_nonneg (x : ℚ) : 0 ≤ Scalar.clamp x 0 1 := by
  rw [clamp_eq]
  exact le_min (zero_le_one' ℚ) (le_max_left 0 x)

end Rational

end Datacenter
