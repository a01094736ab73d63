import Datacenter.Allocation.Text
import Datacenter.Proofs.Statistics

/-!
# Thresholds that have been checked

The parameters of a threshold are checked when a policy is made, be it from settings or from a text
(`AllocationPolicy.isChecked_of_ofText`). Over exact numbers a threshold that has been checked is at
most one on every host (`UpperThreshold.le_one`): an adaptive one takes a measure of spread off one,
and such measures are not negative.
-/

namespace Datacenter

theorem Measure.nonneg {m : Measure} {data : List ℚ} {x : ℚ} (hx : m.of data = .ok x) : 0 ≤ x := by
  cases m with
  | mad =>
    cases hx
    exact Statistics.mad_nonneg data
  | iqr => exact Statistics.iqr_nonneg hx

theorem checkFraction_eq_ok {α : Type} [Scalar α] {parameter : Parameter} {x y : α} :
    checkFraction parameter x = .ok y ↔
      (Scalar.isFinite x = true ∧ 0 ≤ x ∧ x ≤ 1) ∧ x = y := by
  unfold checkFraction
  split <;> simp_all [and_assoc]

theorem checkNonNegative_eq_ok {α : Type} [Scalar α] {parameter : Parameter} {x y : α} :
    checkNonNegative parameter x = .ok y ↔ (Scalar.isFinite x = true ∧ 0 ≤ x) ∧ x = y := by
  unfold checkNonNegative
  split <;> simp_all

namespace UpperThreshold

section

variable {α : Type} [Scalar α]

/-- The parameters have passed their checks, those of the fallback included. -/
def IsChecked : UpperThreshold α → Prop
  | fixed threshold => checkFraction .overThreshold threshold = .ok threshold
  | adaptive _ safety _ fallback =>
    checkNonNegative .safety safety = .ok safety ∧ fallback.IsChecked

theorem isChecked_of_makeFixed {x : α} {t : UpperThreshold α} (h : makeFixed x = .ok t) :
    t.IsChecked := by
  obtain ⟨y, hy, h⟩ := Fault.bind_eq_ok.mp h
  cases h
  obtain rfl := (checkFraction_eq_ok.mp hy).2
  exact hy

theorem isChecked_of_makeAdaptive {measure : Measure} {safety : α} {minHistory : Nat}
    {fallback t : UpperThreshold α} (hfallback : fallback.IsChecked)
    (h : makeAdaptive measure safety minHistory fallback = .ok t) : t.IsChecked := by
  obtain ⟨safety', hsafety, h⟩ := Fault.bind_eq_ok.mp h
  obtain ⟨minHistory', -, h⟩ := Fault.bind_eq_ok.mp h
  cases h
  obtain rfl := (checkNonNegative_eq_ok.mp hsafety).2
  exact ⟨hsafety, hfallback⟩

end

/-- A threshold that has been checked is at most one. -/
theorem le_one {t : UpperThreshold ℚ} (ht : t.IsChecked) {h : Host ℚ} {x : ℚ}
    (hx : t.of h = .ok x) : x ≤ 1 := by
  induction t with
  | fixed threshold =>
    cases hx
    exact (checkFraction_eq_ok.mp ht).1.2.2
  | adaptive measure safety minHistory fallback ih =>
    obtain ⟨hsafety, hfallback⟩ := ht
    obtain ⟨spread?, hspread, hx⟩ := Fault.bind_eq_ok.mp hx
    cases spread? with
    | none => exact ih hfallback hx
    | some spread =>
      cases hx
      have hnonneg : 0 ≤ spread := by
        unfold variability? at hspread
        dsimp only at hspread
        split at hspread
        · cases hspread
        · obtain ⟨-, -, hspread⟩ := Fault.bind_eq_ok.mp hspread
          obtain ⟨y, hy, hspread⟩ := Fault.bind_eq_ok.mp hspread
          cases hspread
          exact Measure.nonneg hy
      have hproduct := mul_nonneg (checkNonNegative_eq_ok.mp hsafety).1.2 hnonneg
      exact sub_le_self 1 hproduct

end UpperThreshold

/-! ## Texts -/

namespace AllocationPolicy

variable {α : Type} [TextScalar α] {settings : Settings α} {rule : Consolidation.Rule α}
  {selection : SelectionPolicy}

theorem isChecked_of_adaptiveOf {options : Options} {upper : α} {t : UpperThreshold α}
    (h : adaptiveOf options settings upper = .ok t) : t.IsChecked := by
  obtain ⟨name, -, h⟩ := Fault.bind_eq_ok.mp h
  obtain ⟨measure, -, h⟩ := Fault.bind_eq_ok.mp h
  obtain ⟨safety, -, h⟩ := Fault.bind_eq_ok.mp h
  obtain ⟨minHistory, -, h⟩ := Fault.bind_eq_ok.mp h
  obtain ⟨fallback, hfallback, h⟩ := Fault.bind_eq_ok.mp h
  unfold fallbackOf at hfallback
  split at hfallback
  · exact UpperThreshold.isChecked_of_makeAdaptive
      (UpperThreshold.isChecked_of_makeFixed hfallback) h
  · cases hfallback

theorem isChecked_of_consolidatingOf {options : Options} {adaptive : Bool} {fit : TargetFit}
    (h : consolidatingOf options settings adaptive fit = .ok (.consolidating rule selection)) :
    rule.upper.IsChecked := by
  obtain ⟨-, -, h⟩ := Fault.bind_eq_ok.mp h
  obtain ⟨fit', -, h⟩ := Fault.bind_eq_ok.mp h
  obtain ⟨⟨lower, upper⟩, -, h⟩ := Fault.bind_eq_ok.mp h
  dsimp only at h
  -- whatever the threshold is, it becomes the one of the rule
  have hmade : ∀ threshold, (do
      let selection ← SelectionPolicy.ofText settings.selectionPolicy
      let rule ← Consolidation.Rule.make (searchOf settings) fit' threshold lower
      return consolidating rule selection) = .ok (consolidating rule selection) →
      rule.upper = threshold := by
    intro threshold h
    obtain ⟨selection', -, h⟩ := Fault.bind_eq_ok.mp h
    obtain ⟨rule', hrule, h⟩ := Fault.bind_eq_ok.mp h
    cases h
    obtain ⟨lower', -, hrule⟩ := Fault.bind_eq_ok.mp hrule
    cases hrule
    rfl
  split at h
  · obtain ⟨threshold, hthreshold, h⟩ := Fault.bind_eq_ok.mp h
    exact hmade threshold h ▸ isChecked_of_adaptiveOf hthreshold
  · obtain ⟨threshold, hthreshold, h⟩ := Fault.bind_eq_ok.mp h
    exact hmade threshold h ▸ UpperThreshold.isChecked_of_makeFixed hthreshold

/-- The rule of a policy that a text designates has a checked threshold. -/
theorem isChecked_of_ofText {text : String}
    (h : ofText text settings = .ok (.consolidating rule selection)) : rule.upper.IsChecked := by
  obtain ⟨options, -, h⟩ := Fault.bind_eq_ok.mp h
  split at h
  · obtain ⟨-, -, h⟩ := Fault.bind_eq_ok.mp h
    cases h
  · obtain ⟨-, -, h⟩ := Fault.bind_eq_ok.mp h
    cases h
  · obtain ⟨-, -, h⟩ := Fault.bind_eq_ok.mp h
    cases h
  · exact isChecked_of_consolidatingOf h
  · exact isChecked_of_consolidatingOf h
  · exact isChecked_of_consolidatingOf h
  · exact isChecked_of_consolidatingOf h
  · cases h

end AllocationPolicy

end Datacenter
