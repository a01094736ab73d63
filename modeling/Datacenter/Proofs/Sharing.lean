import Datacenter.Proofs.Rational
import Datacenter.Sharing
import Mathlib.Tactic.Ring

/-!
# What the division of a capacity hands out

Every request has one share (`length_shareCapacity`). Over exact numbers, and as long as nobody asks
for less than nothing, no share is negative and all of them together fit into the capacity
(`shareCapacity_bounds`).

The division goes in rounds. What has been granted and what is left of the capacity make up the same
sum before and after a round, because no more is granted than is left: those who are granted their
requests ask for at most the fair share each. The last round hands out what is left in proportion.
-/

namespace Datacenter

open Scalar

section

variable {α : Type} [Scalar α]

theorem settle_of_modest {remaining : α} {portions : List (Portion α)}
    (h : (openRequests portions).any
      (fun r => decide (r ≤ remaining / ((openRequests portions).length : α))) = true) :
    settle remaining portions = settle
      (((openRequests portions).filter fun r =>
        decide (r ≤ remaining / ((openRequests portions).length : α))).foldl (· - ·) remaining)
      (grantRound (remaining / ((openRequests portions).length : α)) portions) := by
  conv_lhs => unfold settle
  exact dif_pos h

theorem settle_of_immodest {remaining : α} {portions : List (Portion α)}
    (h : ¬ (openRequests portions).any
      (fun r => decide (r ≤ remaining / ((openRequests portions).length : α))) = true) :
    settle remaining portions
      = portions.map (·.scaleBy (remaining / sum (openRequests portions))) := by
  conv_lhs => unfold settle
  exact dif_neg h

theorem length_settle (remaining : α) (portions : List (Portion α)) :
    (settle remaining portions).length = portions.length := by
  induction remaining, portions using settle.induct with
  | case1 remaining portions pending fair hmodest granted ih =>
    rw [settle_of_modest hmodest, ih, grantRound, List.length_map]
  | case2 remaining portions pending fair himmodest =>
    rw [settle_of_immodest himmodest, List.length_map]

theorem length_shareCapacity (requests : List α) (capacity : α) :
    (shareCapacity requests capacity).length = requests.length := by
  unfold shareCapacity
  split
  · rfl
  · rw [List.length_map, length_settle, List.length_map]

end

/-! ## One round -/

/-- Open requests are positive, and settled shares are not negative. -/
def Portion.IsProper : Portion ℚ → Prop
  | pending r => 0 < r
  | granted s => 0 ≤ s

variable {portions : List (Portion ℚ)} {remaining fair : ℚ}

/-- What has been granted. -/
def grantedSum (portions : List (Portion ℚ)) : ℚ :=
  (portions.map Portion.share).sum

theorem isProper_grantUpTo {p : Portion ℚ} (hp : p.IsProper) : (p.grantUpTo fair).IsProper := by
  cases p with
  | pending r =>
    rw [grantUpTo_pending]
    split
    · exact le_of_lt (show 0 < r from hp)
    · exact hp
  | granted s => exact hp

/-- A round adds the requests that it grants to what has been granted. -/
theorem grantedSum_grantRound (fair : ℚ) (portions : List (Portion ℚ)) :
    grantedSum (grantRound fair portions)
      = grantedSum portions + ((openRequests portions).filter fun r => decide (r ≤ fair)).sum := by
  induction portions with
  | nil => simp [grantedSum, grantRound]
  | cons p portions ih =>
    have hround : grantedSum (grantRound fair (p :: portions))
        = (p.grantUpTo fair).share + grantedSum (grantRound fair portions) := rfl
    have hsum : grantedSum (p :: portions) = p.share + grantedSum portions := rfl
    rw [hround, hsum, ih]
    cases p with
    | granted s => rw [grantUpTo_granted, openRequests_granted, add_assoc]
    | pending r =>
      rw [grantUpTo_pending, openRequests_pending, List.filter_cons]
      by_cases hr : r ≤ fair
      · rw [if_pos hr, if_pos (decide_eq_true hr), List.sum_cons]
        simp only [Portion.share]
        ring
      · rw [if_neg hr, if_neg (by simpa using hr)]
        ring

theorem mul_div_le {x : ℚ} (hx : 0 ≤ x) (y : ℚ) : y * (x / y) ≤ x := by
  rcases eq_or_ne y 0 with rfl | hy
  · rwa [zero_mul]
  · exact (mul_div_cancel₀ x hy).le

/-- No more is granted in a round than is left. -/
theorem sum_modest_le (hremaining : 0 ≤ remaining) (pending : List ℚ) :
    (pending.filter fun r => decide (r ≤ remaining / (pending.length : ℚ))).sum ≤ remaining := by
  have hfair : 0 ≤ remaining / (pending.length : ℚ) :=
    div_nonneg hremaining (Nat.cast_nonneg _)
  have hmodest : ∀ r ∈ pending.filter fun r => decide (r ≤ remaining / (pending.length : ℚ)),
      r ≤ remaining / (pending.length : ℚ) := fun r hr =>
    of_decide_eq_true (List.mem_filter.mp hr).2
  have hcount : ((pending.filter fun r =>
      decide (r ≤ remaining / (pending.length : ℚ))).length : ℚ) ≤ pending.length := by
    exact_mod_cast List.length_filter_le ..
  calc (pending.filter fun r => decide (r ≤ remaining / (pending.length : ℚ))).sum
      ≤ _ • (remaining / (pending.length : ℚ)) := List.sum_le_card_nsmul _ _ hmodest
    _ ≤ pending.length * (remaining / (pending.length : ℚ)) := by
        rw [nsmul_eq_mul]
        exact mul_le_mul_of_nonneg_right hcount hfair
    _ ≤ remaining := mul_div_le hremaining _

theorem foldl_sub (xs : List ℚ) (x : ℚ) : xs.foldl (· - ·) x = x - xs.sum := by
  induction xs generalizing x with
  | nil => simp
  | cons y ys ih =>
    rw [List.foldl_cons, ih, List.sum_cons]
    ring

/-- Settling in proportion adds the fraction of the open requests. -/
theorem grantedSum_scale (factor : ℚ) (portions : List (Portion ℚ)) :
    grantedSum (portions.map (·.scaleBy factor))
      = grantedSum portions + (openRequests portions).sum * factor := by
  induction portions with
  | nil => simp [grantedSum]
  | cons p portions ih =>
    have hscaled : grantedSum ((p :: portions).map (·.scaleBy factor))
        = (p.scaleBy factor).share + grantedSum (portions.map (·.scaleBy factor)) := rfl
    have hsum : grantedSum (p :: portions) = p.share + grantedSum portions := rfl
    rw [hscaled, hsum, ih]
    cases p with
    | granted s =>
      rw [openRequests_granted]
      simp only [Portion.scaleBy]
      ring
    | pending r =>
      rw [openRequests_pending, List.sum_cons]
      simp only [Portion.scaleBy, Portion.share]
      ring

theorem openRequests_pos (hproper : ∀ p ∈ portions, p.IsProper) :
    ∀ r ∈ openRequests portions, 0 < r := by
  intro r hr
  obtain ⟨p, hp, hpending⟩ := List.mem_filterMap.mp hr
  cases p with
  | pending r' =>
    obtain rfl := Option.some.inj hpending
    exact hproper _ hp
  | granted s => contradiction

/-! ## All rounds -/

/-- The shares are not negative, and they are made up of what had been granted and no more than was
left. -/
theorem settle_bounds (hremaining : 0 ≤ remaining) (hproper : ∀ p ∈ portions, p.IsProper) :
    (∀ p ∈ settle remaining portions, 0 ≤ p.share)
      ∧ grantedSum (settle remaining portions) ≤ grantedSum portions + remaining := by
  induction remaining, portions using settle.induct with
  | case1 remaining portions pending fair hmodest granted ih =>
    have hgranted : granted.sum ≤ remaining := sum_modest_le hremaining pending
    have hleft : granted.foldl (· - ·) remaining = remaining - granted.sum := foldl_sub ..
    have hround := grantedSum_grantRound fair portions
    rw [settle_of_modest hmodest]
    obtain ⟨hnonneg, hsum⟩ := ih (by rw [hleft]; exact sub_nonneg.mpr hgranted)
      (List.forall_mem_map.mpr fun p hp => isProper_grantUpTo (hproper p hp))
    refine ⟨hnonneg, hsum.trans ?_⟩
    rw [hleft, hround]
    exact le_of_eq (by ring)
  | case2 remaining portions pending fair himmodest =>
    have hpos := openRequests_pos hproper
    have hdemand : 0 ≤ (openRequests portions).sum :=
      List.sum_nonneg fun r hr => (hpos r hr).le
    rw [settle_of_immodest himmodest, Rational.sum_eq]
    have hfactor : 0 ≤ remaining / (openRequests portions).sum := div_nonneg hremaining hdemand
    constructor
    · intro p hp
      obtain ⟨p, hmem, rfl⟩ := List.mem_map.mp hp
      have hsettled := hproper p hmem
      cases p with
      | pending r => exact mul_nonneg (le_of_lt hsettled) hfactor
      | granted s => exact hsettled
    · rw [grantedSum_scale]
      exact add_le_add_right (mul_div_le hremaining _) _

/-- No share is negative, and all of them fit into the capacity; below zero there is none. -/
theorem shareCapacity_bounds {requests : List ℚ} (hrequests : ∀ r ∈ requests, 0 ≤ r)
    (capacity : ℚ) : (∀ s ∈ shareCapacity requests capacity, 0 ≤ s)
      ∧ (shareCapacity requests capacity).sum ≤ max capacity 0 := by
  unfold shareCapacity
  rw [Rational.sum_eq, Rational.larger_eq]
  split
  · exact ⟨hrequests, le_max_of_le_left ‹_›⟩
  · have hproper : ∀ p ∈ requests.map fun r =>
        if 0 < r then Portion.pending r else Portion.granted 0, p.IsProper := by
      refine List.forall_mem_map.mpr fun r _ => ?_
      split
      · exact ‹0 < r›
      · exact le_refl (0 : ℚ)
    have hnothing : grantedSum (requests.map fun r =>
        if 0 < r then Portion.pending r else Portion.granted 0) = 0 := by
      refine List.sum_eq_zero (List.forall_mem_map.mpr (List.forall_mem_map.mpr fun r _ => ?_))
      split <;> rfl
    obtain ⟨hnonneg, hsum⟩ := settle_bounds (le_max_right capacity 0) hproper
    rw [hnothing, zero_add] at hsum
    exact ⟨List.forall_mem_map.mpr hnonneg, hsum⟩

end Datacenter
