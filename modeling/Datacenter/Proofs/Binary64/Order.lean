import Mathlib.Algebra.Group.Nat.Defs
import Datacenter.Binary64.Basic
import Datacenter.Sorting

/-!
# The two orders of binary floating point

Numbers are sorted by their places and compared by their ranks. On values these are the same order
but for the two zeros, which share a rank: negative zero has the place before that of zero
(`Binary64.place_cases`). So a list sorted by the places is sorted by the values
(`Binary64.le_of_inOrder`), and between two values the order of the places is that of the values with
negative zero put before zero (`Binary64.inOrder_eq_false_iff`).
-/

namespace Datacenter

open Std

/-- Numbers that are no values have their places, too. -/
instance : TransOrd Binary64 :=
  inferInstanceAs (TransCmp (compareOn Binary64.place))

namespace Binary64

variable {x y : Binary64}

/-- A number without magnitude is one of the two zeros. -/
theorem eq_of_magnitude (h : x.magnitude = 0) : x = ⟨0⟩ ∨ x = ⟨signBit⟩ := by
  have hbits : x.bits = 0 ∨ x.bits = signBit := by
    unfold magnitude isNegative at h
    split at h
    · right
      have h' := congrArg (· + signBit) h
      simpa using h'
    · exact .inl h
  exact hbits.imp (congrArg Binary64.mk) (congrArg Binary64.mk)

/-- The ranks are the places on everything but the zeros, and nothing else is at their places. -/
theorem place_cases (x : Binary64) :
    x.rank = x.place ∧ (x.place.toNat < 2 ^ 63 - 1 ∨ 2 ^ 63 < x.place.toNat) ∨ x = 0 ∨ x = -0 := by
  by_cases hzero : x.magnitude = 0
  · exact .inr (eq_of_magnitude hzero)
  refine .inl ⟨if_neg hzero, ?_⟩
  have hbits := x.bits.toNat_lt
  have hsignBit : signBit.toNat = 2 ^ 63 := rfl
  have hnegative : x.isNegative = true ↔ 2 ^ 63 ≤ x.bits.toNat := by
    rw [isNegative, decide_eq_true_eq, UInt64.le_iff_toNat_le, hsignBit]
  rw [magnitude, ← UInt64.toNat_inj, UInt64.toNat_zero] at hzero
  rw [place]
  by_cases hsign : x.isNegative = true
  · rw [if_pos hsign, UInt64.toNat_sub_of_le _ _ (of_decide_eq_true hsign), hsignBit] at hzero
    rw [if_pos hsign, UInt64.toNat_not]
    rw [hnegative] at hsign
    left
    show 2 ^ 64 - 1 - x.bits.toNat < 2 ^ 63 - 1
    omega
  · rw [if_neg hsign] at hzero
    rw [if_neg hsign, UInt64.toNat_add, hsignBit]
    rw [hnegative] at hsign
    right
    omega

theorem eq_zero_iff : x = 0 ↔ x.place.toNat = 2 ^ 63 := by
  refine ⟨fun h => h ▸ rfl, fun h => ?_⟩
  rcases x.place_cases with ⟨-, hplace⟩ | rfl | rfl
  · omega
  · rfl
  · exact absurd h (by decide)

theorem eq_neg_zero_iff : x = -0 ↔ x.place.toNat = 2 ^ 63 - 1 := by
  refine ⟨fun h => h ▸ rfl, fun h => ?_⟩
  rcases x.place_cases with ⟨-, hplace⟩ | rfl | rfl
  · omega
  · exact absurd h (by decide)
  · rfl

theorem toNat_rank_eq (x : Binary64) :
    x.rank.toNat = if x = -0 then 2 ^ 63 else x.place.toNat := by
  rcases x.place_cases with ⟨hrank, hplace⟩ | rfl | rfl
  · rw [if_neg (by rw [eq_neg_zero_iff]; omega), hrank]
  · rfl
  · rfl

/-- One value comes before another one: it is below it, or it is negative zero and the other one is
zero. -/
def Precedes (x y : Binary64) : Prop :=
  x < y ∨ x = -0 ∧ y = 0

theorem inOrder_iff_place_le : inOrder x y = true ↔ x.place ≤ y.place :=
  isLE_compare (a := x.place)

/-- Values are put into the order that tells apart the two zeros. -/
theorem inOrder_eq_false_iff (hx : x.isNaN = false) (hy : y.isNaN = false) :
    inOrder x y = false ↔ y.Precedes x := by
  have hprecedes : y.Precedes x ↔ y.rank < x.rank ∨ y = -0 ∧ x = 0 := by
    show (y.isNaN = false ∧ x.isNaN = false ∧ y.rank < x.rank) ∨ _ ↔ _
    simp only [hx, hy, true_and]
  rw [hprecedes, ← Bool.not_eq_true, inOrder_iff_place_le, UInt64.not_le, UInt64.lt_iff_toNat_lt,
    UInt64.lt_iff_toNat_lt, toNat_rank_eq, toNat_rank_eq]
  simp only [eq_zero_iff, eq_neg_zero_iff]
  split <;> split <;> omega

theorem le_trans {z : Binary64} (h : x ≤ y) (h' : y ≤ z) : x ≤ z :=
  ⟨h.1, h'.2.1, UInt64.le_trans h.2.2 h'.2.2⟩

/-- Values that are put into order are in the order of the values. -/
theorem le_of_inOrder (hx : x.isNaN = false) (hy : y.isNaN = false) (h : inOrder x y = true) :
    x ≤ y := by
  have hnot : ¬ y.Precedes x := fun hprecedes =>
    ne_true_of_eq_false ((inOrder_eq_false_iff hx hy).mpr hprecedes) h
  exact ⟨hx, hy, UInt64.not_lt.mp fun hlt => hnot (.inl ⟨hy, hx, hlt⟩)⟩

end Binary64

end Datacenter
