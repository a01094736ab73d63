import Datacenter.Proofs.Real
import Datacenter.Regression
import Mathlib.Tactic.FieldSimp
import Mathlib.Tactic.LinearCombination

/-!
# Reflections

Over exact numbers a reflection keeps what regression measures: it is linear
(`Regression.reflect_takeAway`), it keeps the sum of the squares (`Regression.sumSquares_reflect`),
and it leaves nothing below the first row of the column whose normal it is taken from
(`Regression.reflect_reflectionNormal`).

Columns are lists of one length. Only their part below the settled rows is reflected, so each fact is
proved for the part below first, where no row is settled, and the settled rows are put in front of it
afterwards.
-/

namespace Datacenter.Regression

variable {settled : Nat} {normal column target : List ℝ}

/-! ## Sums of squares -/

@[simp] theorem sumSquares_nil : sumSquares ([] : List ℝ) = 0 := by
  rw [sumSquares, RealNumbers.sum_eq, List.map_nil, List.sum_nil]

@[simp] theorem sumSquares_cons (x : ℝ) (xs : List ℝ) :
    sumSquares (x :: xs) = x * x + sumSquares xs := by
  rw [sumSquares, sumSquares, RealNumbers.sum_eq, RealNumbers.sum_eq, List.map_cons, List.sum_cons]

@[simp] theorem dot_nil (ys : List ℝ) : dot [] ys = 0 := by
  rw [dot, RealNumbers.sum_eq, List.zipWith_nil_left, List.sum_nil]

@[simp] theorem dot_cons (x y : ℝ) (xs ys : List ℝ) :
    dot (x :: xs) (y :: ys) = x * y + dot xs ys := by
  rw [dot, dot, RealNumbers.sum_eq, RealNumbers.sum_eq, List.zipWith_cons_cons, List.sum_cons]

theorem sumSquares_append (xs ys : List ℝ) :
    sumSquares (xs ++ ys) = sumSquares xs + sumSquares ys := by
  induction xs with
  | nil => rw [List.nil_append, sumSquares_nil, zero_add]
  | cons x xs ih => rw [List.cons_append, sumSquares_cons, sumSquares_cons, ih, add_assoc]

theorem sumSquares_nonneg (xs : List ℝ) : 0 ≤ sumSquares xs := by
  induction xs with
  | nil => rw [sumSquares_nil]
  | cons x xs ih =>
    rw [sumSquares_cons]
    exact add_nonneg (mul_self_nonneg x) ih

/-- A part of a column is not longer than the column. -/
theorem sumSquares_drop_le (n : Nat) (xs : List ℝ) : sumSquares (xs.drop n) ≤ sumSquares xs := by
  have hsplit := sumSquares_append (xs.take n) (xs.drop n)
  rw [List.take_append_drop] at hsplit
  linarith [sumSquares_nonneg (xs.take n)]

theorem dot_self (xs : List ℝ) : dot xs xs = sumSquares xs := by
  induction xs with
  | nil => rw [dot_nil, sumSquares_nil]
  | cons x xs ih => rw [dot_cons, sumSquares_cons, ih]

/-! ## Taking multiples away -/

/-- What is left of a target if a multiple of a column is taken away. -/
noncomputable def takeAway (factor : ℝ) (column target : List ℝ) : List ℝ :=
  List.zipWith (fun y x => y - factor * x) target column

@[simp] theorem takeAway_nil (factor : ℝ) (column : List ℝ) : takeAway factor column [] = [] :=
  List.zipWith_nil_left

@[simp] theorem takeAway_cons (factor x y : ℝ) (column target : List ℝ) :
    takeAway factor (x :: column) (y :: target) = (y - factor * x) :: takeAway factor column target :=
  rfl

theorem length_takeAway (factor : ℝ) (h : column.length = target.length) :
    (takeAway factor column target).length = target.length := by
  rw [takeAway, List.length_zipWith, h, Nat.min_self]

theorem drop_takeAway (n : Nat) (factor : ℝ) (column target : List ℝ) :
    (takeAway factor column target).drop n = takeAway factor (column.drop n) (target.drop n) :=
  List.drop_zipWith

theorem takeAway_zero (h : column.length = target.length) : takeAway 0 column target = target := by
  induction target generalizing column with
  | nil => rfl
  | cons y target ih =>
    cases column with
    | nil => contradiction
    | cons x column => rw [takeAway_cons, zero_mul, sub_zero, ih (Nat.succ.inj h)]

/-- Multiples of nothing take nothing away. -/
theorem takeAway_replicate (factor : ℝ) (target : List ℝ) :
    takeAway factor (List.replicate target.length 0) target = target := by
  induction target with
  | nil => rfl
  | cons y target ih =>
    rw [List.length_cons, List.replicate_succ, takeAway_cons, mul_zero, sub_zero, ih]

/-- A column taken away from itself leaves nothing. -/
theorem takeAway_one_self (column : List ℝ) :
    takeAway 1 column column = List.replicate column.length 0 := by
  induction column with
  | nil => rfl
  | cons x column ih =>
    rw [takeAway_cons, ih, one_mul, sub_self, List.length_cons, List.replicate_succ]

theorem dot_takeAway (factor : ℝ) (hcolumn : column.length = normal.length)
    (htarget : target.length = normal.length) :
    dot normal (takeAway factor column target) = dot normal target - factor * dot normal column := by
  induction normal generalizing column target with
  | nil => simp
  | cons v normal ih =>
    cases column with
    | nil => contradiction
    | cons x column =>
      cases target with
      | nil => contradiction
      | cons y target =>
        rw [takeAway_cons, dot_cons, dot_cons, dot_cons, ih (Nat.succ.inj hcolumn)
          (Nat.succ.inj htarget)]
        ring

theorem sumSquares_takeAway (factor : ℝ) (h : column.length = target.length) :
    sumSquares (takeAway factor column target)
      = sumSquares target - 2 * factor * dot column target + factor * factor * sumSquares column := by
  induction target generalizing column with
  | nil =>
    obtain rfl := List.length_eq_zero_iff.mp h
    simp
  | cons y target ih =>
    cases column with
    | nil => contradiction
    | cons x column =>
      rw [takeAway_cons, sumSquares_cons, sumSquares_cons, sumSquares_cons, dot_cons,
        ih (Nat.succ.inj h)]
      ring

/-- What is taken away in two steps may be taken away in the other order, if what the second column
loses is made up for. -/
theorem takeAway_takeAway (factor a b : ℝ) (normal column target : List ℝ) :
    takeAway (b - factor * a) normal (takeAway factor column target)
      = takeAway factor (takeAway a normal column) (takeAway b normal target) := by
  induction target generalizing normal column with
  | nil => rfl
  | cons y target ih =>
    cases column with
    | nil => cases normal <;> rfl
    | cons x column =>
      cases normal with
      | nil => rfl
      | cons v normal =>
        simp only [takeAway_cons, ih]
        congr 1
        ring

/-! ## Reflecting -/

theorem reflect_eq (settled : Nat) (normal column : List ℝ) (square : ℝ) :
    reflect settled normal square column = column.take settled
      ++ takeAway (2 * dot normal (column.drop settled) / square) normal (column.drop settled) :=
  rfl

theorem length_reflect (square : ℝ) (h : normal.length = (column.drop settled).length) :
    (reflect settled normal square column).length = column.length := by
  rw [reflect_eq, List.length_append, length_takeAway _ h, ← List.length_append,
    List.take_append_drop]

/-- Only what is below the settled rows is reflected. -/
theorem drop_reflect (square : ℝ) (h : settled ≤ column.length) :
    (reflect settled normal square column).drop settled
      = reflect 0 normal square (column.drop settled) := by
  rw [reflect_eq, List.drop_append, List.drop_take, Nat.sub_self, List.take_zero, List.nil_append,
    List.length_take_of_le h, Nat.sub_self, List.drop_zero]
  rfl

/-- A reflection keeps the sum of the squares. -/
theorem sumSquares_reflect (h : normal.length = (column.drop settled).length)
    (hne : sumSquares normal ≠ 0) :
    sumSquares (reflect settled normal (sumSquares normal) column) = sumSquares column := by
  have hbelow : sumSquares (takeAway (2 * dot normal (column.drop settled) / sumSquares normal)
      normal (column.drop settled)) = sumSquares (column.drop settled) := by
    rw [sumSquares_takeAway _ h]
    field_simp
    ring
  rw [reflect_eq, sumSquares_append, hbelow, ← sumSquares_append, List.take_append_drop]

/-- A reflection is linear. -/
theorem reflect_takeAway (factor square : ℝ) (hlength : column.length = target.length)
    (h : normal.length = (target.drop settled).length) :
    reflect settled normal square (takeAway factor column target)
      = takeAway factor (reflect settled normal square column)
        (reflect settled normal square target) := by
  have hcolumn : (column.drop settled).length = normal.length := by
    rw [h, List.length_drop, List.length_drop, hlength]
  have hfactor : 2 * dot normal (takeAway factor (column.drop settled) (target.drop settled)) / square
      = 2 * dot normal (target.drop settled) / square
        - factor * (2 * dot normal (column.drop settled) / square) := by
    rw [dot_takeAway factor hcolumn h.symm]
    ring
  have htake : (takeAway factor column target).take settled
      = takeAway factor (column.take settled) (target.take settled) := List.take_zipWith
  rw [reflect_eq, reflect_eq, reflect_eq, drop_takeAway, hfactor, takeAway_takeAway, htake]
  refine (List.zipWith_append ?_).symm
  rw [List.length_take, List.length_take, hlength]

/-- The value that the reflection taken from a column leaves in its first row. It has the length of
the column, and the sign that the first value does not have. -/
noncomputable def firstAfter (x : ℝ) (below : List ℝ) : ℝ :=
  if 0 < x then -Real.sqrt (sumSquares (x :: below)) else Real.sqrt (sumSquares (x :: below))

theorem reflectionNormal_eq (x : ℝ) (below : List ℝ) :
    reflectionNormal x below = (x - firstAfter x below) :: below := by
  rw [reflectionNormal, RealNumbers.scalar_zero]
  rfl

theorem firstAfter_mul_self (x : ℝ) (below : List ℝ) :
    firstAfter x below * firstAfter x below = sumSquares (x :: below) := by
  have hroot := Real.mul_self_sqrt (sumSquares_nonneg (x :: below))
  unfold firstAfter
  split
  · rw [neg_mul_neg, hroot]
  · exact hroot

/-- The first value and what becomes of it have different signs, so their difference is no
cancellation. -/
theorem mul_firstAfter_nonpos (x : ℝ) (below : List ℝ) : x * firstAfter x below ≤ 0 := by
  have hroot := Real.sqrt_nonneg (sumSquares (x :: below))
  unfold firstAfter
  split
  · exact mul_nonpos_of_nonneg_of_nonpos (le_of_lt ‹_›) (neg_nonpos.mpr hroot)
  · exact mul_nonpos_of_nonpos_of_nonneg (not_lt.mp ‹_›) hroot

theorem dot_reflectionNormal (x : ℝ) (below : List ℝ) :
    dot (reflectionNormal x below) (x :: below)
      = sumSquares (x :: below) - x * firstAfter x below := by
  rw [reflectionNormal_eq, dot_cons, dot_self, sumSquares_cons]
  ring

theorem sumSquares_reflectionNormal (x : ℝ) (below : List ℝ) :
    sumSquares (reflectionNormal x below)
      = 2 * (sumSquares (x :: below) - x * firstAfter x below) := by
  have hfirst := firstAfter_mul_self x below
  rw [sumSquares_cons] at hfirst
  rw [reflectionNormal_eq, sumSquares_cons, sumSquares_cons]
  linear_combination hfirst

section

variable {x : ℝ} {below : List ℝ} (hne : sumSquares (x :: below) ≠ 0)
include hne

theorem firstAfter_ne_zero : firstAfter x below ≠ 0 := fun hzero =>
  hne (by rw [← firstAfter_mul_self, hzero, mul_zero])

theorem sumSquares_reflectionNormal_ne_zero : sumSquares (reflectionNormal x below) ≠ 0 := by
  have hpos : 0 < sumSquares (x :: below) := lt_of_le_of_ne (sumSquares_nonneg _) hne.symm
  rw [sumSquares_reflectionNormal]
  linarith [mul_firstAfter_nonpos x below]

/-- The reflection taken from a column leaves nothing of it below its first row. -/
theorem reflect_reflectionNormal :
    reflect 0 (reflectionNormal x below) (sumSquares (reflectionNormal x below)) (x :: below)
      = firstAfter x below :: List.replicate below.length 0 := by
  have hsquare := sumSquares_reflectionNormal_ne_zero hne
  have hfactor : 2 * dot (reflectionNormal x below) (x :: below)
      / sumSquares (reflectionNormal x below) = 1 := by
    rw [dot_reflectionNormal, ← sumSquares_reflectionNormal]
    exact div_self hsquare
  rw [reflect_eq, List.take_zero, List.nil_append, List.drop_zero, hfactor, reflectionNormal_eq,
    takeAway_cons, takeAway_one_self, one_mul, sub_sub_cancel]

end

end Datacenter.Regression
