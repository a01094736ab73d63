import Datacenter.Proofs.Sharing
import Mathlib.Algebra.BigOperators.Ring.List
import Mathlib.Data.List.Perm.Basic

/-!
# The level to which a capacity fills requests

Dividing a capacity that does not suffice is water-filling with a proportional top. There is a level
such that the requests up to it are granted in full, and such that the capacity would be used up
exactly if each request above it were granted the level (`IsWaterLevel`). The requests above it do
share that part of the capacity, but in proportion to what they ask for.

## Shape of the proof

A round of the division grants requests up to the fair share and leaves a smaller division. It is
enough to see that the level of the smaller division is not below the fair share of the round: then
it is the level of the division before the round as well, and the share of a request is the same
function of the request on both sides (`exists_waterLevel_settle`). The fair shares thus rise towards
the level, and the last of them is the level itself.

Requests determine their level (`IsWaterLevel.unique`), whatever order they come in. This is why the
order in which the requests are listed does not matter to any of them.
-/

namespace Datacenter

open Scalar

/-! ## Levels -/

/-- A level that some request exceeds and that uses up the capacity when every request is granted up
to it. -/
structure IsWaterLevel (requests : List ℚ) (capacity level : ℚ) : Prop where
  exceeded : ∃ r ∈ requests, level < r
  usedUp : (requests.map (min · level)).sum = capacity

/-- The part of the requests above the level that they are granted. -/
def topFactor (requests : List ℚ) (capacity level : ℚ) : ℚ :=
  (capacity - (requests.filter (· ≤ level)).sum) / (requests.filter (level < ·)).sum

/-- What is granted to a request, given the level and the part that is granted above it. -/
def fillUpTo (level factor request : ℚ) : ℚ :=
  if request ≤ level then request else request * factor

variable {requests requests' modest rest : List ℚ} {capacity level level' factor fair remaining : ℚ}

theorem IsWaterLevel.perm (h : IsWaterLevel requests capacity level)
    (horder : requests'.Perm requests) : IsWaterLevel requests' capacity level := by
  obtain ⟨⟨r, hr, hlevel⟩, hused⟩ := h
  exact ⟨⟨r, horder.mem_iff.mpr hr, hlevel⟩, (horder.map _).sum_eq.trans hused⟩

theorem topFactor_perm (horder : requests'.Perm requests) :
    topFactor requests' capacity level = topFactor requests capacity level := by
  unfold topFactor
  rw [(horder.filter _).sum_eq, (horder.filter _).sum_eq]

/-- Higher levels use up more. -/
theorem IsWaterLevel.unique (h : IsWaterLevel requests capacity level)
    (h' : IsWaterLevel requests capacity level') : level = level' := by
  have hnot_lt : ∀ {low high : ℚ}, IsWaterLevel requests capacity low →
      IsWaterLevel requests capacity high → ¬ low < high := by
    intro low high hlow hhigh hlt
    obtain ⟨r, hr, habove⟩ := hlow.exceeded
    have hmore : (requests.map (min · low)).sum < (requests.map (min · high)).sum :=
      List.sum_lt_sum _ _ (fun s _ => min_le_min_left s hlt.le)
        ⟨r, hr, by rw [min_eq_right habove.le]; exact lt_min habove hlt⟩
    exact hmore.ne (hlow.usedUp.trans hhigh.usedUp.symm)
  exact le_antisymm (not_lt.mp (hnot_lt h' h)) (not_lt.mp (hnot_lt h h'))

/-- The level is at least an equal part of the capacity. -/
theorem IsWaterLevel.div_length_le (h : IsWaterLevel requests capacity level) :
    capacity / (requests.length : ℚ) ≤ level := by
  have hlength : (0 : ℚ) < (requests.length : ℚ) := by
    obtain ⟨r, hr, -⟩ := h.exceeded
    exact_mod_cast List.length_pos_of_mem hr
  have hused : (requests.map (min · level)).sum ≤ (requests.map (min · level)).length • level :=
    List.sum_le_card_nsmul _ _ (List.forall_mem_map.mpr fun r _ => min_le_right r level)
  rw [h.usedUp, List.length_map, nsmul_eq_mul] at hused
  rw [div_le_iff₀ hlength, mul_comm]
  exact hused

/-- Requests that do not exceed the level take what they ask for from the capacity. -/
theorem IsWaterLevel.append (h : IsWaterLevel rest capacity level)
    (hmodest : ∀ r ∈ modest, r ≤ level) :
    IsWaterLevel (modest ++ rest) (modest.sum + capacity) level := by
  obtain ⟨⟨r, hr, hlevel⟩, hused⟩ := h
  refine ⟨⟨r, List.mem_append_right _ hr, hlevel⟩, ?_⟩
  have hfull : modest.map (min · level) = modest := by
    conv_rhs => rw [← List.map_id modest]
    exact List.map_congr_left fun r hr => min_eq_left (hmodest r hr)
  rw [List.map_append, List.sum_append, hfull, hused]

theorem topFactor_append (hmodest : ∀ r ∈ modest, r ≤ level) :
    topFactor (modest ++ rest) (modest.sum + capacity) level = topFactor rest capacity level := by
  have hfull : modest.filter (· ≤ level) = modest :=
    List.filter_eq_self.mpr fun r hr => decide_eq_true (hmodest r hr)
  have hnone : modest.filter (level < ·) = [] :=
    List.filter_eq_nil_iff.mpr fun r hr => by simpa using hmodest r hr
  unfold topFactor
  rw [List.filter_append, List.filter_append, hfull, hnone, List.sum_append, List.nil_append,
    add_sub_add_left_eq_sub]

/-- A level that every request exceeds is used up once for each of them. -/
theorem IsWaterLevel.of_exceeded (hsome : requests ≠ []) (habove : ∀ r ∈ requests, level < r) :
    IsWaterLevel requests ((requests.length : ℚ) * level) level := by
  obtain ⟨r, hr⟩ := List.exists_mem_of_ne_nil _ hsome
  have hcut : requests.map (min · level) = requests.map fun _ => level :=
    List.map_congr_left fun r hr => min_eq_right (habove r hr).le
  refine ⟨⟨r, hr, habove r hr⟩, ?_⟩
  rw [hcut, List.map_const', List.sum_replicate, nsmul_eq_mul]

theorem topFactor_of_exceeded (habove : ∀ r ∈ requests, level < r) :
    topFactor requests capacity level = capacity / requests.sum := by
  have hnone : requests.filter (· ≤ level) = [] :=
    List.filter_eq_nil_iff.mpr fun r hr => by simpa using habove r hr
  have hall : requests.filter (level < ·) = requests :=
    List.filter_eq_self.mpr fun r hr => decide_eq_true (habove r hr)
  rw [topFactor, hnone, hall, List.sum_nil, sub_zero]

/-- A sum is made up of the requests that do not exceed the level and of those that do. -/
theorem sum_map_split (above : ℚ → ℚ) (requests : List ℚ) (level : ℚ) :
    (requests.map fun r => if r ≤ level then r else above r).sum
      = (requests.filter (· ≤ level)).sum + ((requests.filter (level < ·)).map above).sum := by
  induction requests with
  | nil => simp
  | cons r rs ih =>
    rw [List.map_cons, List.sum_cons, ih]
    by_cases hr : r ≤ level
    · have hnot : ¬ level < r := not_lt.mpr hr
      simp only [List.filter_cons, hr, hnot, decide_true, decide_false, if_true, List.sum_cons,
        Bool.false_eq_true, if_false, add_assoc]
    · have habove : level < r := not_le.mp hr
      simp only [List.filter_cons, hr, habove, decide_true, decide_false, if_true, List.map_cons,
        List.sum_cons, Bool.false_eq_true, if_false]
      ring

/-- Apart from the requests up to the level, the capacity is used up by the level itself, once for
each request above it. -/
theorem IsWaterLevel.left_eq (h : IsWaterLevel requests capacity level) :
    capacity - (requests.filter (· ≤ level)).sum = (requests.countP (level < ·) : ℚ) * level := by
  have hsplit : capacity = (requests.filter (· ≤ level)).sum
      + ((requests.filter (level < ·)).map fun _ => level).sum := by
    rw [← sum_map_split, ← h.usedUp]
    simp only [min_def]
  rw [hsplit, add_sub_cancel_left, List.map_const', List.sum_replicate, nsmul_eq_mul,
    ← List.countP_eq_length_filter]

theorem IsWaterLevel.countP_pos (h : IsWaterLevel requests capacity level) :
    (0 : ℚ) < (requests.countP (level < ·) : ℚ) := by
  obtain ⟨r, hr, habove⟩ := h.exceeded
  exact_mod_cast List.countP_pos_iff.mpr ⟨r, hr, decide_eq_true habove⟩

theorem IsWaterLevel.left_nonneg (h : IsWaterLevel requests capacity level) (hlevel : 0 ≤ level) :
    0 ≤ capacity - (requests.filter (· ≤ level)).sum := by
  rw [h.left_eq]
  exact mul_nonneg h.countP_pos.le hlevel

/-- The requests above the level ask for more than is left for them. -/
theorem IsWaterLevel.left_lt (h : IsWaterLevel requests capacity level) :
    capacity - (requests.filter (· ≤ level)).sum < (requests.filter (level < ·)).sum := by
  obtain ⟨r, hr, habove⟩ := h.exceeded
  have hmore : ((requests.filter (level < ·)).map fun _ => level).sum
      < ((requests.filter (level < ·)).map id).sum :=
    List.sum_lt_sum _ _ (fun s hs => (of_decide_eq_true (List.mem_filter.mp hs).2).le)
      ⟨r, List.mem_filter.mpr ⟨hr, decide_eq_true habove⟩, habove⟩
  rwa [List.map_const', List.sum_replicate, List.map_id, nsmul_eq_mul,
    ← List.countP_eq_length_filter, ← h.left_eq] at hmore

theorem IsWaterLevel.topFactor_nonneg (h : IsWaterLevel requests capacity level)
    (hlevel : 0 ≤ level) : 0 ≤ topFactor requests capacity level :=
  div_nonneg (h.left_nonneg hlevel) ((h.left_nonneg hlevel).trans h.left_lt.le)

theorem IsWaterLevel.topFactor_lt_one (h : IsWaterLevel requests capacity level)
    (hlevel : 0 ≤ level) : topFactor requests capacity level < 1 :=
  (div_lt_one₀ ((h.left_nonneg hlevel).trans_lt h.left_lt)).mpr h.left_lt

/-- Filling up to the level and granting the factor above it uses up the capacity. -/
theorem IsWaterLevel.sum_fillUpTo (h : IsWaterLevel requests capacity level) (hlevel : 0 ≤ level) :
    (requests.map (fillUpTo level (topFactor requests capacity level))).sum = capacity := by
  have htop : (requests.filter (level < ·)).sum ≠ 0 :=
    ((h.left_nonneg hlevel).trans_lt h.left_lt).ne'
  unfold fillUpTo
  rw [sum_map_split, List.sum_map_mul_right, List.map_id', topFactor, mul_div_cancel₀ _ htop,
    add_sub_cancel]

/-! ## Rounds -/

/-- Settles an open request at a level. -/
def Portion.settleAt (level factor : ℚ) : Portion ℚ → Portion ℚ
  | pending r => granted (fillUpTo level factor r)
  | granted s => granted s

/-- A round up to a fair share that the level does not fall below anticipates nothing but what is
settled at the level anyway. -/
theorem settleAt_grantUpTo (hfair : fair ≤ level) (p : Portion ℚ) :
    (p.grantUpTo fair).settleAt level factor = p.settleAt level factor := by
  cases p with
  | granted s => rfl
  | pending r =>
    rw [grantUpTo_pending]
    split
    · have hr : r ≤ level := le_trans ‹r ≤ fair› hfair
      rw [Portion.settleAt, Portion.settleAt, fillUpTo, if_pos hr]
    · rfl

theorem openRequests_grantRound (fair : ℚ) (portions : List (Portion ℚ)) :
    openRequests (grantRound fair portions)
      = (openRequests portions).filter fun r => !decide (r ≤ fair) := by
  induction portions with
  | nil => rfl
  | cons p portions ih =>
    rw [grantRound, List.map_cons, ← grantRound]
    cases p with
    | granted s => exact ih
    | pending r =>
      rw [grantUpTo_pending, openRequests_pending, List.filter_cons]
      by_cases hr : r ≤ fair
      · rw [if_pos hr, openRequests_granted, ih, decide_eq_true hr]
        rfl
      · rw [if_neg hr, openRequests_pending, ih, decide_eq_false hr]
        rfl

/-- The fair share of a round is not above that of the next one. -/
theorem fair_le_next_fair (pending : List ℚ) (remaining : ℚ)
    (hrest : pending.filter (fun r => !decide (r ≤ remaining / (pending.length : ℚ))) ≠ []) :
    remaining / (pending.length : ℚ)
      ≤ (remaining - (pending.filter fun r => decide (r ≤ remaining / (pending.length : ℚ))).sum)
        / ((pending.filter fun r => !decide (r ≤ remaining / (pending.length : ℚ))).length : ℚ) := by
  set fair := remaining / (pending.length : ℚ) with hfair
  set granted := pending.filter fun r => decide (r ≤ fair)
  set rest := pending.filter fun r => !decide (r ≤ fair)
  have hlength : (granted.length : ℚ) + (rest.length : ℚ) = (pending.length : ℚ) := by
    rw [← Nat.cast_add, ← List.length_append,
      (List.filter_append_perm (fun r => decide (r ≤ fair)) pending).length_eq]
  have hrest_pos : (0 : ℚ) < (rest.length : ℚ) := by
    exact_mod_cast List.length_pos_iff.mpr hrest
  have hpending : (0 : ℚ) < (pending.length : ℚ) := by
    rw [← hlength]
    exact add_pos_of_nonneg_of_pos (Nat.cast_nonneg _) hrest_pos
  have hgranted : granted.sum ≤ granted.length • fair :=
    List.sum_le_card_nsmul _ _ fun r hr => of_decide_eq_true (List.mem_filter.mp hr).2
  rw [nsmul_eq_mul] at hgranted
  have hall : fair * (granted.length + rest.length) = remaining := by
    rw [hlength, hfair, div_mul_cancel₀ _ hpending.ne']
  rw [le_div_iff₀ hrest_pos]
  linarith

/-- Open requests that cannot all be granted are settled at the level of what is left. -/
theorem exists_waterLevel_settle {portions : List (Portion ℚ)} (hremaining : 0 ≤ remaining)
    (hshort : remaining < (openRequests portions).sum) :
    ∃ level, IsWaterLevel (openRequests portions) remaining level
      ∧ settle remaining portions = portions.map
        (·.settleAt level (topFactor (openRequests portions) remaining level)) := by
  induction remaining, portions using settle.induct with
  | case1 remaining portions pending fair hmodest granted ih =>
    set rest := pending.filter fun r => !decide (r ≤ fair) with hrest
    have hparts : (granted ++ rest).Perm pending := List.filter_append_perm _ pending
    have hleft : granted.foldl (· - ·) remaining = remaining - granted.sum := foldl_sub ..
    have hopen : openRequests (grantRound fair portions) = rest :=
      openRequests_grantRound fair portions
    have hgranted : granted.sum ≤ remaining := sum_modest_le hremaining pending
    have hsum : pending.sum = granted.sum + rest.sum := by
      rw [← hparts.sum_eq, List.sum_append]
    rw [hopen, hleft] at ih
    obtain ⟨level, hlevel, hsettle⟩ := ih (sub_nonneg.mpr hgranted)
      (sub_lt_iff_lt_add'.mpr (hshort.trans_eq hsum))
    -- the level of the smaller division is not below the fair share of this round
    have hfair : fair ≤ level := by
      refine le_trans (fair_le_next_fair pending remaining ?_) hlevel.div_length_le
      obtain ⟨r, hr, -⟩ := hlevel.exceeded
      exact List.ne_nil_of_mem hr
    have hmodest_le : ∀ r ∈ granted, r ≤ level := fun r hr =>
      (of_decide_eq_true (List.mem_filter.mp hr).2).trans hfair
    have hwhole := hlevel.append hmodest_le
    have hfactor : topFactor (granted ++ rest) (granted.sum + (remaining - granted.sum)) level
        = topFactor rest (remaining - granted.sum) level := topFactor_append hmodest_le
    rw [add_sub_cancel] at hwhole hfactor
    rw [topFactor_perm hparts] at hfactor
    refine ⟨level, hwhole.perm hparts.symm, ?_⟩
    rw [settle_of_modest hmodest]
    show settle (granted.foldl (· - ·) remaining) (grantRound fair portions) = _
    rw [hleft, hsettle, hfactor, grantRound, List.map_map]
    exact List.map_congr_left fun p _ => settleAt_grantUpTo hfair p
  | case2 remaining portions pending fair himmodest =>
    have habove : ∀ r ∈ pending, fair < r := fun r hr => by
      simpa using fun hle => himmodest (List.any_eq_true.mpr ⟨r, hr, decide_eq_true hle⟩)
    have hsome : pending ≠ [] := fun hnil => by
      rw [show openRequests portions = [] from hnil] at hshort
      exact absurd hshort (not_lt.mpr hremaining)
    have hlevel := IsWaterLevel.of_exceeded hsome habove
    have hlength : (pending.length : ℚ) ≠ 0 := by
      exact_mod_cast (List.length_pos_iff.mpr hsome).ne'
    rw [show (pending.length : ℚ) * fair = remaining from mul_div_cancel₀ _ hlength] at hlevel
    refine ⟨fair, hlevel, ?_⟩
    rw [settle_of_immodest himmodest, Rational.sum_eq, topFactor_of_exceeded habove]
    refine List.map_congr_left fun p hp => ?_
    cases p with
    | granted s => rfl
    | pending r =>
      have hr : r ∈ pending := List.mem_filterMap.mpr ⟨_, hp, rfl⟩
      rw [Portion.settleAt, fillUpTo, if_neg (not_le.mpr (habove r hr))]
      rfl

/-! ## The whole division -/

/-- Requests of nothing stay aside. -/
theorem openRequests_positive (requests : List ℚ) :
    openRequests (requests.map fun r => if 0 < r then Portion.pending r else Portion.granted 0)
      = requests.filter (0 < ·) := by
  induction requests with
  | nil => rfl
  | cons r rs ih =>
    rw [List.map_cons, List.filter_cons]
    by_cases hr : 0 < r
    · rw [if_pos hr, openRequests_pending, ih, if_pos (decide_eq_true hr)]
    · rw [if_neg hr, openRequests_granted, ih, if_neg (by simpa using hr)]

/-- A capacity that does not suffice fills the requests up to a level. -/
theorem exists_waterLevel_shareCapacity (hrequests : ∀ r ∈ requests, 0 ≤ r)
    (hcapacity : 0 ≤ capacity) (hshort : capacity < requests.sum) :
    ∃ level, IsWaterLevel requests capacity level
      ∧ capacity / (requests.countP (0 < ·) : ℚ) ≤ level
      ∧ shareCapacity requests capacity
        = requests.map (fillUpTo level (topFactor requests capacity level)) := by
  set positive := requests.filter (0 < ·) with hpositive
  set nothing := requests.filter fun r => !decide (0 < r)
  have hparts : (nothing ++ positive).Perm requests :=
    List.perm_append_comm.trans (List.filter_append_perm _ requests)
  have hzero : ∀ r ∈ nothing, r = 0 := fun r hr => by
    obtain ⟨hmem, hnot⟩ := List.mem_filter.mp hr
    exact le_antisymm (by simpa using hnot) (hrequests r hmem)
  have hnothing : nothing.sum = 0 := List.sum_eq_zero hzero
  have hsum : requests.sum = positive.sum := by
    rw [← hparts.sum_eq, List.sum_append, hnothing, zero_add]
  have hopen := openRequests_positive requests
  obtain ⟨level, hlevel, hsettle⟩ := exists_waterLevel_settle hcapacity
    (by rw [hopen, ← hpositive, ← hsum]; exact hshort)
  rw [hopen, ← hpositive] at hlevel hsettle
  have hequal : capacity / (requests.countP (0 < ·) : ℚ) ≤ level := by
    rw [List.countP_eq_length_filter]
    exact hlevel.div_length_le
  have hlevel_nonneg : 0 ≤ level := (div_nonneg hcapacity (Nat.cast_nonneg _)).trans hequal
  -- requests of nothing change neither the level nor what is granted above it
  have hmodest : ∀ r ∈ nothing, r ≤ level := fun r hr => (hzero r hr).trans_le hlevel_nonneg
  have hwhole := hlevel.append hmodest
  have hfactor : topFactor (nothing ++ positive) (nothing.sum + capacity) level
      = topFactor positive capacity level := topFactor_append hmodest
  rw [hnothing, zero_add] at hwhole hfactor
  rw [topFactor_perm hparts] at hfactor
  refine ⟨level, hwhole.perm hparts.symm, hequal, ?_⟩
  rw [shareCapacity, if_neg (by rw [Rational.sum_eq]; exact not_le.mpr hshort),
    Rational.larger_eq, max_eq_left hcapacity]
  show (settle capacity _).map Portion.share = _
  rw [hsettle, List.map_map, List.map_map, hfactor]
  refine List.map_congr_left fun r hr => ?_
  by_cases hr' : 0 < r
  · rw [Function.comp_apply, Function.comp_apply, if_pos hr']
    rfl
  · obtain rfl : r = 0 := le_antisymm (not_lt.mp hr') (hrequests r hr)
    rw [Function.comp_apply, Function.comp_apply, if_neg hr', fillUpTo, if_pos hlevel_nonneg]
    rfl

theorem shareCapacity_of_sum_le (henough : requests.sum ≤ capacity) :
    shareCapacity requests capacity = requests := by
  rw [shareCapacity, if_pos (by rw [Rational.sum_eq]; exact henough)]

theorem fillUpTo_bounds {r : ℚ} (hr : 0 ≤ r) (hfactor : 0 ≤ factor) (hone : factor ≤ 1) :
    0 ≤ fillUpTo level factor r ∧ fillUpTo level factor r ≤ r := by
  unfold fillUpTo
  split
  · exact ⟨hr, le_refl r⟩
  · exact ⟨mul_nonneg hr hfactor, mul_le_of_le_one_right hr hone⟩

/-- Nobody gets more than they ask for, and no less of the capacity is handed out than there are
requests for. -/
theorem shareCapacity_exact (hrequests : ∀ r ∈ requests, 0 ≤ r) (hcapacity : 0 ≤ capacity) :
    List.Forall₂ (fun r s => 0 ≤ s ∧ s ≤ r) requests (shareCapacity requests capacity)
      ∧ (shareCapacity requests capacity).sum = min requests.sum capacity := by
  rcases le_or_gt requests.sum capacity with henough | hshort
  · rw [shareCapacity_of_sum_le henough, min_eq_left henough]
    exact ⟨List.forall₂_same.mpr fun r hr => ⟨hrequests r hr, le_refl r⟩, rfl⟩
  · obtain ⟨level, hlevel, hequal, hshares⟩ :=
      exists_waterLevel_shareCapacity hrequests hcapacity hshort
    have hlevel_nonneg : 0 ≤ level := (div_nonneg hcapacity (Nat.cast_nonneg _)).trans hequal
    rw [hshares, min_eq_right hshort.le]
    exact ⟨List.forall₂_map_right_iff.mpr <| List.forall₂_same.mpr fun r hr =>
        fillUpTo_bounds (hrequests r hr) (hlevel.topFactor_nonneg hlevel_nonneg)
          (hlevel.topFactor_lt_one hlevel_nonneg).le,
      hlevel.sum_fillUpTo hlevel_nonneg⟩

/-- A request that does not exceed an equal part of the capacity is granted in full. -/
theorem shareCapacity_of_le_equal_part (hrequests : ∀ r ∈ requests, 0 ≤ r) (hcapacity : 0 ≤ capacity)
    {i : ℕ} {r : ℚ} (hr : requests[i]? = some r) (hpart : r ≤ capacity / (requests.length : ℚ)) :
    (shareCapacity requests capacity)[i]? = some r := by
  rcases le_or_gt requests.sum capacity with henough | hshort
  · rwa [shareCapacity_of_sum_le henough]
  · obtain ⟨level, hlevel, -, hshares⟩ :=
      exists_waterLevel_shareCapacity hrequests hcapacity hshort
    rw [hshares, List.getElem?_map, hr, Option.map_some, fillUpTo,
      if_pos (hpart.trans hlevel.div_length_le)]

/-- What is granted to a request is one function of it in every order of the requests. -/
theorem exists_shareOf (hrequests : ∀ r ∈ requests, 0 ≤ r) (hcapacity : 0 ≤ capacity) :
    ∃ shareOf : ℚ → ℚ, ∀ requests' : List ℚ, requests'.Perm requests →
      shareCapacity requests' capacity = requests'.map shareOf := by
  rcases le_or_gt requests.sum capacity with henough | hshort
  · refine ⟨id, fun requests' horder => ?_⟩
    rw [shareCapacity_of_sum_le (horder.sum_eq.trans_le henough), List.map_id]
  · obtain ⟨level, hlevel, -, -⟩ := exists_waterLevel_shareCapacity hrequests hcapacity hshort
    refine ⟨fillUpTo level (topFactor requests capacity level), fun requests' horder => ?_⟩
    obtain ⟨level', hlevel', -, hshares⟩ := exists_waterLevel_shareCapacity
      (fun r hr => hrequests r (horder.mem_iff.mp hr)) hcapacity
      (hshort.trans_eq horder.sum_eq.symm)
    obtain rfl := (hlevel'.perm horder.symm).unique hlevel
    rw [hshares, topFactor_perm horder]

theorem filterMap_getElem?_range (xs : List ℚ) : (List.range xs.length).filterMap (xs[·]?) = xs := by
  induction xs with
  | nil => rfl
  | cons x xs ih =>
    rw [List.length_cons, List.range_succ_eq_map, List.filterMap_cons, List.getElem?_cons_zero,
      List.filterMap_map]
    exact congrArg (x :: ·) ih

/-- Reading the requests in another order reads the shares in that order. -/
theorem shareCapacity_reorder (hrequests : ∀ r ∈ requests, 0 ≤ r) (hcapacity : 0 ≤ capacity)
    {order : List ℕ} (horder : order.Perm (List.range requests.length)) :
    shareCapacity (order.filterMap (requests[·]?)) capacity
      = order.filterMap ((shareCapacity requests capacity)[·]?) := by
  obtain ⟨shareOf, hshareOf⟩ := exists_shareOf hrequests hcapacity
  have hread : (order.filterMap (requests[·]?)).Perm requests :=
    (horder.filterMap _).trans (List.Perm.of_eq (filterMap_getElem?_range requests))
  rw [hshareOf _ hread, hshareOf _ (List.Perm.refl _), List.map_filterMap]
  simp only [List.getElem?_map]

/-- Dividing a capacity is water-filling with a proportional top. Everybody has one share, between
nothing and what they ask for, and together the shares are the requests or the capacity, whichever is
less. If the capacity does not suffice, there is a level, at least an equal part of the capacity,
up to which requests are granted in full; it is what they leave, divided equally among the requests
above it, and these are granted one and the same fraction of what they ask for. The order of the
requests does not matter to any of them. -/
theorem shareCapacity_waterFilling (requests : List ℚ) (capacity : ℚ)
    (hrequests : ∀ r ∈ requests, 0 ≤ r) (hcapacity : 0 ≤ capacity) :
    (shareCapacity requests capacity).length = requests.length
      ∧ List.Forall₂ (fun r s => 0 ≤ s ∧ s ≤ r) requests (shareCapacity requests capacity)
      ∧ (shareCapacity requests capacity).sum = min requests.sum capacity
      ∧ (capacity < requests.sum → ∃ level factor : ℚ,
          capacity / (requests.countP (0 < ·) : ℚ) ≤ level
          ∧ level = (capacity - (requests.filter (· ≤ level)).sum)
              / (requests.countP (level < ·) : ℚ)
          ∧ (∃ r ∈ requests, level < r)
          ∧ factor < 1
          ∧ ∀ (i : ℕ) (r : ℚ), requests[i]? = some r → (shareCapacity requests capacity)[i]?
              = some (if r ≤ level then r else r * factor))
      ∧ (∀ (i : ℕ) (r : ℚ), requests[i]? = some r → r ≤ capacity / (requests.length : ℚ) →
          (shareCapacity requests capacity)[i]? = some r)
      ∧ ∀ order : List ℕ, order.Perm (List.range requests.length) →
          shareCapacity (order.filterMap (requests[·]?)) capacity
            = order.filterMap ((shareCapacity requests capacity)[·]?) := by
  obtain ⟨hbetween, hsum⟩ := shareCapacity_exact hrequests hcapacity
  refine ⟨length_shareCapacity requests capacity, hbetween, hsum, ?_,
    fun i r => shareCapacity_of_le_equal_part hrequests hcapacity,
    fun order => shareCapacity_reorder hrequests hcapacity⟩
  intro hshort
  obtain ⟨level, hlevel, hequal, hshares⟩ :=
    exists_waterLevel_shareCapacity hrequests hcapacity hshort
  have hlevel_nonneg : 0 ≤ level := (div_nonneg hcapacity (Nat.cast_nonneg _)).trans hequal
  refine ⟨level, topFactor requests capacity level, hequal, ?_, hlevel.exceeded,
    hlevel.topFactor_lt_one hlevel_nonneg, ?_⟩
  · rw [hlevel.left_eq, mul_div_cancel_left₀ _ hlevel.countP_pos.ne']
  · intro i r hr
    rw [hshares, List.getElem?_map, hr, Option.map_some, fillUpTo]

theorem shareCapacity_waterFilling_sample :
    (∀ r ∈ ([0, 1, 4, 10, 1000] : List ℚ), 0 ≤ r) ∧ (0 : ℚ) ≤ 15
      ∧ (shareCapacity [0, 1, 4, 10, 1000] (15 : ℚ)).sum = 15 := by
  have hrequests : ∀ r ∈ ([0, 1, 4, 10, 1000] : List ℚ), 0 ≤ r := by decide +kernel
  have hcapacity : (0 : ℚ) ≤ 15 := by decide +kernel
  refine ⟨hrequests, hcapacity, ?_⟩
  obtain ⟨-, -, hsum, -⟩ := shareCapacity_waterFilling [0, 1, 4, 10, 1000] 15 hrequests hcapacity
  rw [hsum]
  decide +kernel

end Datacenter
