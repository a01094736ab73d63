import Datacenter.Proofs.Statistics
import Datacenter.Proofs.Threshold

/-!
# Robust statistics

Over exact numbers every percentile of some data exists: the position it is read at is before the
first value, between two of them or from the last one on (`Statistics.exists_percentile`). It lies
between the smallest and the largest value and grows with its order.

All statistics but the mean look at the sorted data only, and these do not depend on the order of
the data (`ascending_eq_of_perm`).

So an adaptive threshold, which takes a measure of spread off one, is at most one on every host whose
history is long enough for the measure, whatever it falls back on otherwise
(`UpperThreshold.exists_adaptive`). `Statistics.statistics_robust` puts all of this together.
-/

namespace Datacenter

theorem ascending_perm (xs : List ℚ) : (ascending xs).Perm xs :=
  perm_stableSort inOrder xs

@[simp] theorem length_ascending (xs : List ℚ) : (ascending xs).length = xs.length :=
  length_stableSort inOrder xs

theorem length_ascending_pos {data : List ℚ} (hdata : data ≠ []) : 0 < (ascending data).length := by
  rw [length_ascending]
  exact List.length_pos_iff.mpr hdata

/-- Sorted data do not tell in which order the data came. -/
theorem ascending_eq_of_perm {xs ys : List ℚ} (h : xs.Perm ys) : ascending xs = ascending ys :=
  List.Perm.eq_of_pairwise (fun _ _ _ _ => le_antisymm) (pairwise_ascending xs)
    (pairwise_ascending ys) ((ascending_perm xs).trans (h.trans (ascending_perm ys).symm))

/-- Sorted data begin with the smallest value. -/
theorem getElem?_ascending_first {data : List ℚ} (hdata : data ≠ []) :
    (ascending data)[0]? = data.min? := by
  have hpos := length_ascending_pos hdata
  have hfirst : (ascending data)[0]? = some (ascending data)[0] := List.getElem?_eq_getElem hpos
  rw [hfirst, eq_comm, List.min?_eq_some_iff]
  refine ⟨mem_stableSort.mp (List.getElem_mem hpos), fun x hx => ?_⟩
  obtain ⟨i, hi⟩ := List.mem_iff_getElem?.mp (mem_stableSort.mpr hx)
  exact Statistics.ReadAt.getElem?_le (pairwise_ascending data) (Nat.zero_le i) hfirst hi

/-- Sorted data end with the largest value. -/
theorem getElem?_ascending_last {data : List ℚ} (hdata : data ≠ []) :
    (ascending data)[(ascending data).length - 1]? = data.max? := by
  have hpos := length_ascending_pos hdata
  have hlast := List.getElem?_eq_getElem (Nat.sub_one_lt_of_lt hpos)
  rw [hlast, eq_comm, List.max?_eq_some_iff]
  refine ⟨mem_stableSort.mp (List.getElem_mem _), fun x hx => ?_⟩
  obtain ⟨i, hi⟩ := List.mem_iff_getElem?.mp (mem_stableSort.mpr hx)
  have hle : i ≤ (ascending data).length - 1 :=
    Nat.le_sub_one_of_lt (List.getElem?_eq_some_iff.mp hi).1
  exact Statistics.ReadAt.getElem?_le (pairwise_ascending data) hle hi hlast

namespace Statistics

variable {data other : List ℚ}

/-! ## The order of the data -/

theorem median_eq_of_perm (h : other.Perm data) : median other = median data := by
  simp only [median, ascending_eq_of_perm h]

theorem mad_eq_of_perm (h : other.Perm data) : mad other = mad data := by
  rw [mad, mad, deviations, deviations, median_eq_of_perm h]
  exact median_eq_of_perm (h.map _)

theorem percentile_eq_of_perm (h : other.Perm data) (p : ℚ) :
    percentile other p = percentile data p := by
  simp only [percentile, ascending_eq_of_perm h]

theorem iqr_eq_of_perm (h : other.Perm data) : iqr other = iqr data := by
  simp only [iqr, percentile_eq_of_perm h]

/-! ## Positions -/

/-- Between the first value and the last one there are two neighbours to read. -/
theorem exists_interpolate {sorted : List ℚ} {position : ℚ} (hfirst : 1 ≤ position)
    (hlast : position < sorted.length) : ∃ x, interpolate sorted position = .ok x := by
  obtain ⟨hfloor, hceil⟩ := truncate_bounds ((zero_le_one' ℚ).trans hfirst)
  have hpos : Scalar.truncate position ≠ 0 := by
    intro hzero
    rw [hzero, Nat.cast_zero] at hceil
    linarith
  have hlt : Scalar.truncate position < sorted.length := by
    exact_mod_cast hfloor.trans_lt hlast
  have hbelow : Scalar.truncate position - 1 < sorted.length := Nat.sub_lt_of_lt hlt
  have hlower := Fault.elementAt_eq_ok.mpr (List.getElem?_eq_getElem hbelow)
  have hupper := Fault.elementAt_eq_ok.mpr (List.getElem?_eq_getElem hlt)
  rw [interpolate]
  dsimp only
  rw [if_neg hpos, hlower, hupper]
  exact ⟨_, rfl⟩

/-- Data have percentiles of every order. -/
theorem exists_percentile (hdata : data ≠ []) (p : ℚ) : ∃ x, percentile data p = .ok x := by
  have hne : ascending data ≠ [] := List.length_pos_iff.mp (length_ascending_pos hdata)
  rw [percentile]
  simp only [List.head?_eq_some_head hne, List.getLast?_eq_some_getLast hne]
  split
  case isTrue => exact ⟨_, rfl⟩
  case isFalse hfirst =>
    split
    case isTrue => exact ⟨_, rfl⟩
    case isFalse hlast => exact exists_interpolate (not_lt.mp hfirst) (not_le.mp hlast)

theorem exists_iqr (hdata : data ≠ []) : ∃ x, iqr data = .ok x := by
  obtain ⟨upper, hupper⟩ := exists_percentile hdata 75
  obtain ⟨lower, hlower⟩ := exists_percentile hdata 25
  rw [iqr, hupper, hlower]
  exact ⟨_, rfl⟩

/-- The position of a percentile of higher order is not lower. -/
theorem position_mono {p q : ℚ} (hpq : p ≤ q) (n : Nat) :
    p * (n + 1) / 100 ≤ q * (n + 1) / 100 := by
  have hlength : (0 : ℚ) ≤ n + 1 := by positivity
  exact div_le_div_of_nonneg_right (mul_le_mul_of_nonneg_right hpq hlength) (by norm_num)

end Statistics

/-! ## Thresholds -/

/-- Data have a measure of spread, which is not negative. -/
theorem Measure.exists_nonneg (m : Measure) {data : List ℚ} (hdata : data ≠ []) :
    ∃ x, m.of data = .ok x ∧ 0 ≤ x := by
  cases m with
  | mad => exact ⟨_, rfl, Statistics.mad_nonneg data⟩
  | iqr =>
    obtain ⟨x, hx⟩ := Statistics.exists_iqr hdata
    exact ⟨x, hx, Statistics.iqr_nonneg hx⟩

/-- On a host with a history that is long enough, an adaptive threshold exists and is at most one. -/
theorem UpperThreshold.exists_adaptive {measure : Measure} {safety : ℚ} {minHistory : Nat}
    {fallback t : UpperThreshold ℚ} (ht : makeAdaptive measure safety minHistory fallback = .ok t)
    {h : Host ℚ} (hlong : minHistory ≤ h.history.values.length) : ∃ x, t.of h = .ok x ∧ x ≤ 1 := by
  obtain ⟨safety', hsafety, ht⟩ := Fault.bind_eq_ok.mp ht
  obtain ⟨minHistory', hmin, ht⟩ := Fault.bind_eq_ok.mp ht
  cases ht
  obtain ⟨⟨-, hnonneg⟩, rfl⟩ := checkNonNegative_eq_ok.mp hsafety
  unfold checkPositive at hmin
  split at hmin
  · contradiction
  rename_i hpositive
  cases hmin
  have hdata : h.history.values ≠ [] :=
    List.length_pos_iff.mp (Nat.lt_of_lt_of_le (Nat.pos_of_ne_zero hpositive) hlong)
  obtain ⟨spread, hspread, hspread_nonneg⟩ := measure.exists_nonneg hdata
  have hvariability : variability? measure minHistory h = .ok (some spread) := by
    unfold variability?
    dsimp only
    rw [if_neg (Nat.not_lt.mpr hlong), hspread]
    rfl
  refine ⟨1 - safety * spread, ?_, sub_le_self 1 (mul_nonneg hnonneg hspread_nonneg)⟩
  rw [UpperThreshold.of, hvariability]
  rfl

namespace Statistics

/-- What is known of the statistics of data, and of the adaptive thresholds of hosts with these data
for a history. -/
structure IsRobust (data : List ℚ) : Prop where
  /-- Percentiles exist, between the smallest and the largest value and in their order. -/
  percentiles : ∀ p q, p ≤ q → ∃ low x y high, data.min? = some low ∧ data.max? = some high
    ∧ percentile data p = .ok x ∧ percentile data q = .ok y ∧ low ≤ x ∧ x ≤ y ∧ y ≤ high
  /-- A percentile is read at its position in the sorted data. -/
  positions : ∀ p x, percentile data p = .ok x →
    ReadAt (ascending data) (p * (data.length + 1) / 100) x
  /-- The order of the data does not matter. -/
  reordering : ∀ other : List ℚ, other.Perm data → (∀ p, percentile other p = percentile data p)
    ∧ median other = median data ∧ mad other = mad data ∧ iqr other = iqr data
  /-- Measures of spread exist and are not negative. -/
  spread : 0 ≤ mad data ∧ ∃ x, iqr data = .ok x ∧ 0 ≤ x
  /-- An adaptive threshold exists and is at most one if the history is long enough. -/
  threshold : ∀ (measure : Measure) (safety : ℚ) (minHistory : Nat) (fallback t : UpperThreshold ℚ),
    UpperThreshold.makeAdaptive measure safety minHistory fallback = .ok t →
    ∀ h : Host ℚ, h.history.values = data → minHistory ≤ data.length →
      ∃ x, t.of h = .ok x ∧ x ≤ 1

/-- The statistics of all data that are not empty are robust. -/
theorem statistics_robust {data : List ℚ} (hdata : data ≠ []) : IsRobust data := by
  have hread : ∀ p x, percentile data p = .ok x →
      ReadAt (ascending data) (p * (data.length + 1) / 100) x := by
    intro p x hx
    rw [← length_ascending data]
    exact readAt_of_percentile hdata hx
  constructor
  case percentiles =>
    intro p q hpq
    obtain ⟨x, hx⟩ := exists_percentile hdata p
    obtain ⟨y, hy⟩ := exists_percentile hdata q
    obtain ⟨low, hlow⟩ := Option.isSome_iff_exists.mp (List.isSome_min?_of_ne_nil hdata)
    obtain ⟨high, hhigh⟩ := Option.isSome_iff_exists.mp (List.isSome_max?_of_ne_nil hdata)
    have hsorted := pairwise_ascending data
    refine ⟨low, x, y, high, hlow, hhigh, hx, hy, ?_, ?_, ?_⟩
    · exact ((hread p x hx).bounds hsorted).1 low ((getElem?_ascending_first hdata).trans hlow)
    · exact (hread p x hx).mono hsorted (hread q y hy) (position_mono hpq data.length)
    · exact ((hread q y hy).bounds hsorted).2 high ((getElem?_ascending_last hdata).trans hhigh)
  case positions => exact hread
  case reordering =>
    intro other h
    exact ⟨percentile_eq_of_perm h, median_eq_of_perm h, mad_eq_of_perm h, iqr_eq_of_perm h⟩
  case spread =>
    obtain ⟨x, hx⟩ := exists_iqr hdata
    exact ⟨mad_nonneg data, x, hx, iqr_nonneg hx⟩
  case threshold =>
    rintro measure safety minHistory fallback t ht h rfl hlong
    exact UpperThreshold.exists_adaptive ht hlong

/-- Data of five values, two of them equal, and a host with them for a history. -/
def sampleData : List ℚ :=
  [1, 1 / 4, 1 / 2, 3 / 4, 1 / 4]

/-- A host with a history. -/
def sampleHistoryHost : Host ℚ :=
  { Host.new "a" (.new [.new 1000] .timeShared 0) 100 100 100 with
    history := { newestFirst := sampleData.map fun x => (0, x), limit := 5 } }

/-- The quartiles lie five eighths apart, so twice the distance brings the threshold below zero. -/
theorem statistics_robust_sample : sampleData ≠ [] ∧ iqr sampleData = .ok (5 / 8)
    ∧ (∃ x y, percentile sampleData 25 = .ok x ∧ percentile sampleData 75 = .ok y
      ∧ 1 / 4 ≤ x ∧ x ≤ y ∧ y ≤ 1)
    ∧ ∃ t x, UpperThreshold.makeAdaptive .iqr 2 4 (.fixed 3) = .ok t
      ∧ t.of sampleHistoryHost = .ok x ∧ x ≤ 1 ∧ x = -1 / 4 := by
  have hrobust : IsRobust sampleData := statistics_robust (by decide +kernel)
  refine ⟨by decide +kernel, by decide +kernel, ?_, ?_⟩
  · obtain ⟨low, x, y, high, hlow, hhigh, hx, hy, hbounds⟩ :=
      hrobust.percentiles 25 75 (by norm_num)
    obtain rfl : low = 1 / 4 := Option.some.inj (hlow.symm.trans (by decide +kernel))
    obtain rfl : high = 1 := Option.some.inj (hhigh.symm.trans (by decide +kernel))
    exact ⟨x, y, hx, hy, hbounds⟩
  · have hmade : UpperThreshold.makeAdaptive (α := ℚ) .iqr 2 4 (.fixed 3)
        = .ok (.adaptive .iqr 2 4 (.fixed 3)) := by decide +kernel
    obtain ⟨x, hx, hle⟩ := hrobust.threshold .iqr 2 4 (.fixed 3) _ hmade sampleHistoryHost
      (by decide +kernel) (by decide +kernel)
    refine ⟨_, x, hmade, hx, hle, Except.ok.inj (hx.symm.trans (by decide +kernel))⟩

end Statistics

end Datacenter
