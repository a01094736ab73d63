import Mathlib.Algebra.Order.Floor.Semiring
import Mathlib.Data.Rat.Floor
import Datacenter.Proofs.Fault
import Datacenter.Proofs.Rational
import Datacenter.Proofs.Sorting
import Datacenter.Statistics

/-!
# Measures of spread

Over exact numbers neither measure of spread is negative: the median of distances is not
(`Statistics.mad_nonneg`), and since sorted data are read at a higher position for a higher
percentile, the interquartile range is not either (`Statistics.iqr_nonneg`).
-/

namespace Datacenter

/-! ## Sorting -/

theorem inOrder_iff {x y : ℚ} : inOrder x y = true ↔ x ≤ y := by
  show (compareOfLessAndEq x y).isLE = true ↔ x ≤ y
  unfold compareOfLessAndEq
  rcases lt_trichotomy x y with h | rfl | h
  · simp [h, h.le]
  · simp
  · simp [h.not_gt, h.ne', h]

theorem pairwise_ascending (xs : List ℚ) : (ascending xs).Pairwise (· ≤ ·) := by
  have hsorted : (stableSort inOrder xs).Pairwise fun x y => inOrder x y = true :=
    pairwise_stableSort (fun x y => (le_total x y).imp inOrder_iff.mpr inOrder_iff.mpr)
      (fun x y z hxy hyz => inOrder_iff.mpr ((inOrder_iff.mp hxy).trans (inOrder_iff.mp hyz))) xs
  exact hsorted.imp inOrder_iff.mp

namespace Statistics

open Scalar

/-! ## The median of distances -/

theorem median_nonneg {data : List ℚ} (hdata : ∀ x ∈ data, 0 ≤ x) : 0 ≤ median data := by
  have hget : ∀ i, 0 ≤ (ascending data).getD i 0 := by
    intro i
    rw [List.getD_eq_getElem?_getD]
    cases hx : (ascending data)[i]? with
    | none => exact le_refl (0 : ℚ)
    | some x => exact hdata x (mem_stableSort.mp (List.mem_of_getElem? hx))
  unfold median
  dsimp only
  split
  · exact le_refl (0 : ℚ)
  · split
    · exact div_nonneg (add_nonneg (hget _) (hget _)) zero_le_two
    · exact hget _

theorem mad_nonneg (data : List ℚ) : 0 ≤ mad data :=
  median_nonneg <| List.forall_mem_map.mpr fun _ _ => abs_nonneg _

/-! ## Percentiles -/

/-- Sorted data have the value `x` at a position, counted from one. -/
inductive ReadAt (sorted : List ℚ) (position : ℚ) : ℚ → Prop where
  /-- Before the first value. -/
  | first {x : ℚ} : sorted[0]? = some x → position < 1 → ReadAt sorted position x
  /-- From the last value on. -/
  | last {x : ℚ} : sorted[sorted.length - 1]? = some x → (sorted.length : ℚ) ≤ position →
      ReadAt sorted position x
  /-- Between two neighbours. -/
  | between {below : Nat} {lower upper : ℚ} : sorted[below]? = some lower →
      sorted[below + 1]? = some upper → (below : ℚ) + 1 ≤ position → position < below + 2 →
      ReadAt sorted position (lower + (position - (below + 1)) * (upper - lower))

theorem truncate_bounds {x : ℚ} (hx : 0 ≤ x) : (truncate x : ℚ) ≤ x ∧ x < truncate x + 1 := by
  have hfloor : truncate x = ⌊x⌋₊ := Int.floor_toNat x
  rw [hfloor]
  exact ⟨Nat.floor_le hx, Nat.lt_floor_add_one x⟩

theorem interpolate_eq_ok {sorted : List ℚ} {position x : ℚ}
    (hx : interpolate sorted position = .ok x) :
    ∃ below lower upper, truncate position = below + 1 ∧ sorted[below]? = some lower
      ∧ sorted[below + 1]? = some upper
      ∧ x = lower + (position - (below + 1)) * (upper - lower) := by
  unfold interpolate at hx
  dsimp only at hx
  split at hx
  · cases hx
  rename_i hpositive
  obtain ⟨below, hbelow⟩ := Nat.exists_eq_succ_of_ne_zero hpositive
  obtain ⟨-, -, hx⟩ := Fault.bind_eq_ok.mp hx
  obtain ⟨lower, hlower, hx⟩ := Fault.bind_eq_ok.mp hx
  obtain ⟨upper, hupper, hx⟩ := Fault.bind_eq_ok.mp hx
  rw [hbelow] at hlower hupper hx
  refine ⟨below, lower, upper, hbelow, Fault.elementAt_eq_ok.mp hlower,
    Fault.elementAt_eq_ok.mp hupper, ?_⟩
  rw [← Nat.cast_succ]
  exact (Except.ok.inj hx).symm

/-- A percentile is read off the sorted data. -/
theorem readAt_of_percentile {data : List ℚ} {p x : ℚ} (hdata : data ≠ [])
    (hx : percentile data p = .ok x) :
    ReadAt (ascending data) (p * ((ascending data).length + 1) / 100) x := by
  unfold percentile at hx
  dsimp only at hx
  split at hx
  case h_1 low high hlow hhigh =>
    rw [List.head?_eq_getElem?] at hlow
    rw [List.getLast?_eq_getElem?] at hhigh
    split at hx
    case isTrue hbefore =>
      cases hx
      exact .first hlow hbefore
    case isFalse hfrom =>
      split at hx
      case isTrue hbehind =>
        cases hx
        exact .last hhigh hbehind
      case isFalse =>
        obtain ⟨below, lower, upper, hposition, hlower, hupper, rfl⟩ := interpolate_eq_ok hx
        have hone := not_lt.mp hfrom
        have hbounds := truncate_bounds ((zero_le_one' ℚ).trans hone)
        rw [hposition, Nat.cast_succ] at hbounds
        refine .between hlower hupper hbounds.1 ?_
        linarith [hbounds.2]
  case h_2 hnone =>
    have hne : ascending data ≠ [] := by
      rw [← List.length_pos_iff, ascending, length_stableSort]
      exact List.length_pos_iff.mpr hdata
    exact (hnone _ _ (List.head?_eq_some_head hne) (List.getLast?_eq_some_getLast hne)).elim

namespace ReadAt

variable {sorted : List ℚ} {i j x y : ℚ}

/-- A value that is read is not below the one at the start of the neighbourhood and not above the
one at its end. -/
theorem between_bounds {below : Nat} {lower upper position : ℚ} (hle : lower ≤ upper)
    (hlow : (below : ℚ) + 1 ≤ position) (hhigh : position < below + 2) :
    lower ≤ lower + (position - (below + 1)) * (upper - lower)
      ∧ lower + (position - (below + 1)) * (upper - lower) ≤ upper := by
  have hstep : 0 ≤ upper - lower := by linarith
  have hfraction : position - (below + 1) ≤ 1 := by linarith
  have hsome := mul_nonneg (by linarith : 0 ≤ position - (below + 1)) hstep
  have hpart := mul_le_of_le_one_left hstep hfraction
  constructor <;> linarith

theorem getElem?_le (hsorted : sorted.Pairwise (· ≤ ·)) {m n : Nat} (hmn : m ≤ n)
    (hx : sorted[m]? = some x) (hy : sorted[n]? = some y) : x ≤ y := by
  obtain ⟨hm, rfl⟩ := List.getElem?_eq_some_iff.mp hx
  obtain ⟨hn, rfl⟩ := List.getElem?_eq_some_iff.mp hy
  rcases Nat.eq_or_lt_of_le hmn with rfl | hlt
  · exact le_refl _
  · exact List.pairwise_iff_getElem.mp hsorted m n hm hn hlt

/-- What is read lies between the first value and the last one. -/
theorem bounds (hsorted : sorted.Pairwise (· ≤ ·)) (hx : ReadAt sorted i x) :
    (∀ y, sorted[0]? = some y → y ≤ x)
      ∧ (∀ y, sorted[sorted.length - 1]? = some y → x ≤ y) := by
  have hlast : ∀ {n : Nat} {z : ℚ}, sorted[n]? = some z → n ≤ sorted.length - 1 := by
    intro n z hz
    have hn := (List.getElem?_eq_some_iff.mp hz).1
    omega
  cases hx with
  | first hx _ =>
    exact ⟨fun y hy => getElem?_le hsorted (Nat.le_refl _) hy hx,
      fun y hy => getElem?_le hsorted (Nat.zero_le _) hx hy⟩
  | last hx _ =>
    exact ⟨fun y hy => getElem?_le hsorted (Nat.zero_le _) hy hx,
      fun y hy => getElem?_le hsorted (Nat.le_refl _) hx hy⟩
  | between hlower hupper hlow hhigh =>
    have hle := getElem?_le hsorted (Nat.le_succ _) hlower hupper
    obtain ⟨hfrom, hto⟩ := between_bounds hle hlow hhigh
    exact ⟨fun y hy => (getElem?_le hsorted (Nat.zero_le _) hy hlower).trans hfrom,
      fun y hy => hto.trans (getElem?_le hsorted (hlast hupper) hupper hy)⟩

/-- What is read at a higher position is not lower. -/
theorem mono (hsorted : sorted.Pairwise (· ≤ ·)) (hx : ReadAt sorted i x) (hy : ReadAt sorted j y)
    (hij : i ≤ j) : x ≤ y := by
  cases hx with
  | first hx _ => exact (hy.bounds hsorted).1 x hx
  | last hlast hi =>
    cases hy with
    | first hfirst hj =>
      -- a position from the last value on is not before the first one
      have hpositive : 0 < sorted.length := by
        have hn := (List.getElem?_eq_some_iff.mp hfirst).1
        omega
      have hone : (1 : ℚ) ≤ sorted.length := by exact_mod_cast hpositive
      linarith
    | last hlast' _ => exact getElem?_le hsorted (Nat.le_refl _) hlast hlast'
    | @between below lower upper _ hupper _ hj =>
      have hlength : (below : ℚ) + 2 ≤ sorted.length := by
        have hn := (List.getElem?_eq_some_iff.mp hupper).1
        exact_mod_cast hn
      linarith
  | @between below lower upper hlower hupper hlow hhigh =>
    have hle := getElem?_le hsorted (Nat.le_succ below) hlower hupper
    cases hy with
    | first hfirst hj =>
      have hpositive : (0 : ℚ) ≤ below := Nat.cast_nonneg below
      linarith
    | last hlast _ =>
      exact ((ReadAt.between hlower hupper hlow hhigh).bounds hsorted).2 y hlast
    | @between below' lower' upper' hlower' hupper' hlow' hhigh' =>
      have hle' := getElem?_le hsorted (Nat.le_succ below') hlower' hupper'
      rcases Nat.lt_trichotomy below below' with hlt | rfl | hgt
      · have hmiddle := getElem?_le hsorted hlt hupper hlower'
        exact ((between_bounds hle hlow hhigh).2.trans hmiddle).trans
          (between_bounds hle' hlow' hhigh').1
      · obtain rfl := Option.some.inj (hlower.symm.trans hlower')
        obtain rfl := Option.some.inj (hupper.symm.trans hupper')
        have hstep : 0 ≤ upper - lower := by linarith
        have hmore := mul_le_mul_of_nonneg_right (by linarith : i - (below + 1) ≤ j - (below + 1))
          hstep
        linarith
      · have hfar : (below' : ℚ) + 1 ≤ below := by exact_mod_cast hgt
        linarith

end ReadAt

/-- The interquartile range is not negative. -/
theorem iqr_nonneg {data : List ℚ} {x : ℚ} (hx : iqr data = .ok x) : 0 ≤ x := by
  obtain ⟨upper, hupper, hx⟩ := Fault.bind_eq_ok.mp hx
  obtain ⟨lower, hlower, hx⟩ := Fault.bind_eq_ok.mp hx
  cases hx
  have hle : lower ≤ upper := by
    rcases eq_or_ne data [] with rfl | hdata
    · cases hupper
      cases hlower
      exact le_refl _
    · refine (readAt_of_percentile hdata hlower).mono (pairwise_ascending data)
        (readAt_of_percentile hdata hupper) ?_
      have hlength : (0 : ℚ) ≤ (ascending data).length + 1 :=
        add_nonneg (Nat.cast_nonneg _) (zero_le_one' ℚ)
      have hmore := mul_le_mul_of_nonneg_right (by norm_num : (25 : ℚ) ≤ 75) hlength
      exact div_le_div_of_nonneg_right hmore (by norm_num)
  exact sub_nonneg.mpr hle

end Statistics

end Datacenter
