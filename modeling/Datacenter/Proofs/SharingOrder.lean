import Datacenter.Proofs.WaterFilling

/-!
# Who is overtaken

Within the requests up to the level, and within those above it, who asks for more receives no less.
Between the two sides this need not be so. The requests above the level share what is left for them
in proportion, so a very large one takes most of it, and what remains for a request just above the
level may be less than what a smaller one is granted in full (`shareCapacity_lt_iff`).
-/

namespace Datacenter

open Scalar

variable {requests : List ℚ} {capacity level factor : ℚ}

/-- Where there is a level the capacity does not suffice. -/
theorem IsWaterLevel.lt_sum (h : IsWaterLevel requests capacity level) :
    capacity < requests.sum := by
  obtain ⟨r, hr, habove⟩ := h.exceeded
  have hless : (requests.map (min · level)).sum < (requests.map id).sum :=
    List.sum_lt_sum _ _ (fun s _ => min_le_left s level)
      ⟨r, hr, (min_le_right r level).trans_lt habove⟩
  rwa [h.usedUp, List.map_id] at hless

/-- Of two requests the larger one is granted less only across the level. -/
theorem fillUpTo_lt_iff (level : ℚ) (hfactor : 0 ≤ factor) {r r' : ℚ} (hle : r ≤ r') :
    fillUpTo level factor r' < fillUpTo level factor r
      ↔ r ≤ level ∧ level < r' ∧ r' * factor < r := by
  unfold fillUpTo
  rcases le_or_gt r' level with hr' | hr'
  · rw [if_pos hr', if_pos (hle.trans hr')]
    exact ⟨fun h => absurd h (not_lt.mpr hle), fun h => absurd h.2.1 (not_lt.mpr hr')⟩
  · rw [if_neg (not_le.mpr hr')]
    rcases le_or_gt r level with hr | hr
    · rw [if_pos hr]
      exact ⟨fun h => ⟨hr, hr', h⟩, fun h => h.2.2⟩
    · rw [if_neg (not_le.mpr hr)]
      have hscaled : r * factor ≤ r' * factor := mul_le_mul_of_nonneg_right hle hfactor
      exact ⟨fun h => absurd h (not_lt.mpr hscaled), fun h => absurd h.1 (not_le.mpr hr)⟩

/-- Every request has a share, and who asks for more receives no less, with one exception: the
smaller request does not exceed the level, and so is granted in full, while the larger one exceeds
it and is scaled to less than the smaller one. -/
theorem shareCapacity_lt_iff (requests : List ℚ) (capacity : ℚ)
    (hrequests : ∀ r ∈ requests, 0 ≤ r) (hcapacity : 0 ≤ capacity) {i j : ℕ} {r r' : ℚ}
    (hr : requests[i]? = some r) (hr' : requests[j]? = some r') (hle : r ≤ r') :
    ∃ s s', (shareCapacity requests capacity)[i]? = some s
      ∧ (shareCapacity requests capacity)[j]? = some s'
      ∧ (s' < s ↔ ∃ level, IsWaterLevel requests capacity level ∧ r ≤ level ∧ level < r'
          ∧ r' * topFactor requests capacity level < r) := by
  rcases le_or_gt requests.sum capacity with henough | hshort
  · rw [shareCapacity_of_sum_le henough]
    refine ⟨r, r', hr, hr', fun h => absurd h (not_lt.mpr hle), ?_⟩
    rintro ⟨level, hlevel, -⟩
    exact absurd hlevel.lt_sum (not_lt.mpr henough)
  · obtain ⟨level, hlevel, hequal, hshares⟩ :=
      exists_waterLevel_shareCapacity hrequests hcapacity hshort
    have hlevel_nonneg : 0 ≤ level := (div_nonneg hcapacity (Nat.cast_nonneg _)).trans hequal
    have hiff := fillUpTo_lt_iff level (hlevel.topFactor_nonneg hlevel_nonneg) hle
    rw [hshares, List.getElem?_map, List.getElem?_map, hr, hr']
    refine ⟨_, _, rfl, rfl, hiff.trans ⟨fun h => ⟨level, hlevel, h⟩, ?_⟩⟩
    rintro ⟨level', hlevel', h⟩
    obtain rfl := hlevel'.unique hlevel
    exact h

theorem shareCapacity_lt_iff_sample : ∃ level : ℚ, IsWaterLevel [10, 11, 1000] 30 level
    ∧ 10 ≤ level ∧ level < 11 ∧ 11 * topFactor [10, 11, 1000] 30 level < 10 := by
  have hsmall : ([10, 11, 1000] : List ℚ)[0]? = some 10 := rfl
  have hlarge : ([10, 11, 1000] : List ℚ)[1]? = some 11 := rfl
  obtain ⟨s, s', hs, hs', hiff⟩ := shareCapacity_lt_iff [10, 11, 1000] 30 (by decide +kernel)
    (by decide +kernel) hsmall hlarge (by decide +kernel)
  have hfull : (shareCapacity [10, 11, 1000] (30 : ℚ))[0]? = some 10 := by decide +kernel
  have hscaled : (shareCapacity [10, 11, 1000] (30 : ℚ))[1]? = some (220 / 1011) := by
    decide +kernel
  obtain rfl := Option.some.inj (hs.symm.trans hfull)
  obtain rfl := Option.some.inj (hs'.symm.trans hscaled)
  exact hiff.mp (by decide +kernel)

/-- Beside a very large request, who asks for a little more may receive much less. -/
theorem exists_overtaken : ¬ ∀ (requests : List ℚ) (capacity : ℚ), (∀ r ∈ requests, 0 ≤ r) →
    0 ≤ capacity → ∀ (i j : ℕ) (r r' s s' : ℚ), requests[i]? = some r → requests[j]? = some r' →
      (shareCapacity requests capacity)[i]? = some s →
      (shareCapacity requests capacity)[j]? = some s' → r ≤ r' → s ≤ s' := by
  intro hordered
  have hshares : shareCapacity [10, 11, 1000] (30 : ℚ) = [10, 220 / 1011, 20000 / 1011] := by
    decide +kernel
  have hle := hordered [10, 11, 1000] 30 (by decide +kernel) (by decide +kernel) 0 1 10 11 10
    (220 / 1011) rfl rfl (by rw [hshares]; rfl) (by rw [hshares]; rfl) (by decide +kernel)
  exact absurd hle (by decide +kernel)

end Datacenter
