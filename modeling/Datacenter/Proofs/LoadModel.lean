import Datacenter.LoadModel
import Datacenter.Proofs.Binary64.Order
import Datacenter.Proofs.Sorting

/-!
# Replayed loads

A trace is replayed from its samples in the order of their times, by a search for the time that is
asked for. What it replays can be told from the samples in any order
(`LoadModel.demand_trace_eq_iff`): the load of the latest sample up to the time, or of the earliest
sample if all of them come later.

## Two orders

The samples are sorted by the places of their times, which tell apart the two zeros, while the search
compares the values of the times, which do not. It finds its way because the places never put a
greater value before a lower one, so in the sorted samples those up to a time come first, whatever
the time is. The sorted samples are gone once the search has been read off them
(`LoadModel.valueAt_eq`): what is left is the last of the greatest samples up to the time and the
first of the least ones, and sorting leaves both where a walk through the list as it is finds them.
-/

namespace Datacenter.LoadModel

/-! ## The search -/

section

variable {α : Type} [Scalar α]

/-- Whether a sample may come before another one. -/
def inTimeOrder (r s : α × α) : Bool :=
  inOrder r.1 s.1

/-- The samples for times up to a time. -/
def upTo (samples : List (α × α)) (time : α) : List (α × α) :=
  samples.filter fun s => s.1 ≤ time

/-- The value in force is that of the last sample up to the time, or of the first one, if no sample
after the time comes before one up to the time. -/
theorem valueAt_eq {sorted : List (α × α)} {time : α}
    (h : sorted.Pairwise fun r s => s.1 ≤ time → r.1 ≤ time) :
    valueAt sorted time = ((upTo sorted time).getLast?.or sorted.head?).elim 0 Prod.snd := by
  have htake : sorted.take (partitionPoint (fun s => decide (s.1 ≤ time)) sorted)
      = upTo sorted time := take_partitionPoint (by simpa only [decide_eq_true_eq] using h)
  unfold valueAt
  split
  case h_1 hnone => rw [← htake, hnone, List.take_zero, List.getLast?_nil, Option.none_or]
  case h_2 i hfound =>
    have hi := lt_length_of_partitionPoint hfound
    rw [hfound] at htake
    have hlast : (upTo sorted time).getLast? = some (sorted.get ⟨i, hi⟩) := by
      rw [← htake, List.getLast?_take, if_neg (Nat.succ_ne_zero i), Nat.succ_eq_add_one,
        Nat.add_sub_cancel, List.getElem?_eq_getElem hi, Option.some_or, List.get_eq_getElem]
    rw [hlast, Option.some_or, Option.elim_some]

variable [Std.TransOrd α]

theorem inTimeOrder_total (r s : α × α) : inTimeOrder r s = true ∨ inTimeOrder s r = true :=
  inOrder_total r.1 s.1

theorem inTimeOrder_trans (q r s : α × α) : inTimeOrder q r = true → inTimeOrder r s = true →
    inTimeOrder q s = true :=
  inOrder_trans q.1 r.1 s.1

/-- A trace replays what is found by going through its samples as they are listed, if in the order
they are sorted by no sample after the time comes before one up to the time. -/
theorem demand_trace {samples : List (α × α)} {time : α}
    (h : ∀ r ∈ samples, ∀ s ∈ samples, inTimeOrder r s = true → s.1 ≤ time → r.1 ≤ time)
    (age : α) :
    (trace samples).demand time age
      = ((greatest? inTimeOrder (upTo samples time)).or (least? inTimeOrder samples)).elim 0
          Prod.snd := by
  have hpartitioned : (sortSamples samples).Pairwise fun r s => s.1 ≤ time → r.1 ≤ time :=
    (pairwise_stableSort inTimeOrder_total inTimeOrder_trans samples).imp_of_mem fun hr hs =>
      h _ (mem_stableSort.mp hr) _ (mem_stableSort.mp hs)
  have hlatest : (upTo (sortSamples samples) time).getLast?
      = greatest? inTimeOrder (upTo samples time) :=
    (congrArg List.getLast? (filter_stableSort inTimeOrder_total inTimeOrder_trans _ samples)).trans
      (getLast?_stableSort inTimeOrder_total inTimeOrder_trans _)
  have hearliest : (sortSamples samples).head? = least? inTimeOrder samples :=
    head?_stableSort samples
  rw [← hlatest, ← hearliest]
  exact valueAt_eq hpartitioned

end

/-! ## The sample in force -/

/-- Of the samples up to a time, the one for the greatest time; of several for this time, the one
that is listed last. Zero counts as greater than negative zero. -/
def IsLatest (samples : List (Binary64 × Binary64)) (time : Binary64) (s : Binary64 × Binary64) :
    Prop :=
  s.1 ≤ time ∧ ∃ before after, samples = before ++ s :: after
    ∧ (∀ r ∈ before, r.1 ≤ time → ¬ s.1.Precedes r.1)
    ∧ ∀ r ∈ after, r.1 ≤ time → r.1.Precedes s.1

/-- The sample for the lowest time; of several for this time, the one that is listed first. Negative
zero counts as lower than zero. -/
def IsEarliest (samples : List (Binary64 × Binary64)) (s : Binary64 × Binary64) : Prop :=
  ∃ before after, samples = before ++ s :: after
    ∧ (∀ r ∈ before, s.1.Precedes r.1) ∧ ∀ r ∈ after, ¬ r.1.Precedes s.1

/-- The load in force at a time, given the samples in any order. -/
inductive InForce (samples : List (Binary64 × Binary64)) (time : Binary64) : Binary64 → Prop where
  /-- The load of the latest sample up to the time. -/
  | latest {s : Binary64 × Binary64} : IsLatest samples time s → InForce samples time s.2
  /-- The load of the earliest sample, if none is up to the time. -/
  | earliest {s : Binary64 × Binary64} : (∀ r ∈ samples, ¬ r.1 ≤ time) → IsEarliest samples s →
      InForce samples time s.2
  /-- No load, if there are no samples. -/
  | nothing : samples = [] → InForce samples time 0

variable {samples : List (Binary64 × Binary64)} {time load : Binary64} {r s : Binary64 × Binary64}

theorem IsLatest.mem (h : IsLatest samples time s) : s ∈ samples := by
  obtain ⟨-, before, after, rfl, -⟩ := h
  simp

theorem IsEarliest.mem (h : IsEarliest samples s) : s ∈ samples := by
  obtain ⟨before, after, rfl, -⟩ := h
  simp

/-- Sorting by the places of times puts the samples into the order of the values. -/
theorem inTimeOrder_eq_false_iff (hvalues : ∀ s ∈ samples, s.1.isNaN = false)
    (hr : r ∈ samples) (hs : s ∈ samples) : inTimeOrder r s = false ↔ s.1.Precedes r.1 :=
  Binary64.inOrder_eq_false_iff (hvalues r hr) (hvalues s hs)

theorem inTimeOrder_iff_not_precedes (hvalues : ∀ s ∈ samples, s.1.isNaN = false)
    (hr : r ∈ samples) (hs : s ∈ samples) : inTimeOrder r s = true ↔ ¬ s.1.Precedes r.1 := by
  rw [← inTimeOrder_eq_false_iff hvalues hr hs, Bool.not_eq_false]

theorem greatest?_upTo_eq_some_iff (hvalues : ∀ s ∈ samples, s.1.isNaN = false) :
    greatest? inTimeOrder (upTo samples time) = some s ↔ IsLatest samples time s := by
  rw [upTo, greatest?_filter_eq_some_iff inTimeOrder_total inTimeOrder_trans, IsLatest,
    decide_eq_true_iff]
  refine and_congr_right fun _ => exists₂_congr fun before after => and_congr_right ?_
  rintro rfl
  refine and_congr (forall₂_congr fun r hr => ?_) (forall₂_congr fun r hr => ?_)
  · rw [decide_eq_true_iff, inTimeOrder_iff_not_precedes hvalues (by simp [hr]) (by simp)]
  · rw [decide_eq_true_iff, inTimeOrder_eq_false_iff hvalues (by simp) (by simp [hr])]

theorem least?_eq_some_iff_isEarliest (hvalues : ∀ s ∈ samples, s.1.isNaN = false) :
    least? inTimeOrder samples = some s ↔ IsEarliest samples s := by
  rw [least?_eq_some_iff_of_total inTimeOrder_total inTimeOrder_trans, IsEarliest]
  refine exists₂_congr fun before after => and_congr_right ?_
  rintro rfl
  refine and_congr (forall₂_congr fun r hr => ?_) (forall₂_congr fun r hr => ?_)
  · rw [inTimeOrder_eq_false_iff hvalues (by simp [hr]) (by simp)]
  · rw [inTimeOrder_iff_not_precedes hvalues (by simp) (by simp [hr])]

theorem IsLatest.unique (hvalues : ∀ s ∈ samples, s.1.isNaN = false) (hs : IsLatest samples time s)
    (hr : IsLatest samples time r) : s = r := by
  rw [← greatest?_upTo_eq_some_iff hvalues] at hs hr
  exact Option.some.inj (hs.symm.trans hr)

theorem IsEarliest.unique (hvalues : ∀ s ∈ samples, s.1.isNaN = false) (hs : IsEarliest samples s)
    (hr : IsEarliest samples r) : s = r := by
  rw [← least?_eq_some_iff_isEarliest hvalues] at hs hr
  exact Option.some.inj (hs.symm.trans hr)

theorem IsLatest.inForce_iff (hvalues : ∀ s ∈ samples, s.1.isNaN = false)
    (hs : IsLatest samples time s) : InForce samples time load ↔ s.2 = load := by
  refine ⟨fun h => ?_, fun h => h ▸ .latest hs⟩
  cases h with
  | latest hr => rw [hs.unique hvalues hr]
  | earliest hnone _ => exact absurd hs.1 (hnone s hs.mem)
  | nothing hnil => exact absurd hs.mem (hnil ▸ List.not_mem_nil)

theorem IsEarliest.inForce_iff (hvalues : ∀ s ∈ samples, s.1.isNaN = false)
    (hnone : ∀ r ∈ samples, ¬ r.1 ≤ time) (hs : IsEarliest samples s) :
    InForce samples time load ↔ s.2 = load := by
  refine ⟨fun h => ?_, fun h => h ▸ .earliest hnone hs⟩
  cases h with
  | latest hr => exact absurd hr.1 (hnone _ hr.mem)
  | earliest _ hr => rw [hs.unique hvalues hr]
  | nothing hnil => exact absurd hs.mem (hnil ▸ List.not_mem_nil)

theorem inForce_nil_iff : InForce [] time load ↔ 0 = load := by
  refine ⟨fun h => ?_, fun h => h ▸ .nothing rfl⟩
  cases h with
  | latest hs => exact absurd hs.mem List.not_mem_nil
  | earliest _ hs => exact absurd hs.mem List.not_mem_nil
  | nothing _ => rfl

/-- Going through the list finds the sample in force, be it the latest one up to the time or the
earliest one of all. -/
theorem inForce_iff (hvalues : ∀ s ∈ samples, s.1.isNaN = false) :
    InForce samples time load
      ↔ ((greatest? inTimeOrder (upTo samples time)).or (least? inTimeOrder samples)).elim 0
          Prod.snd = load := by
  cases hfound : greatest? inTimeOrder (upTo samples time) with
  | some s =>
    rw [Option.some_or, Option.elim_some]
    exact ((greatest?_upTo_eq_some_iff hvalues).mp hfound).inForce_iff hvalues
  | none =>
    have hnone : ∀ r ∈ samples, ¬ r.1 ≤ time := fun r hr hle =>
      List.filter_eq_nil_iff.mp (least?_eq_none hfound) r hr (decide_eq_true hle)
    rw [Option.none_or]
    cases hfirst : least? inTimeOrder samples with
    | some s =>
      rw [Option.elim_some]
      exact ((least?_eq_some_iff_isEarliest hvalues).mp hfirst).inForce_iff hvalues hnone
    | none =>
      obtain rfl := least?_eq_none hfirst
      exact inForce_nil_iff

/-- A trace of samples for times that are values replays, at every time, the load in force: that of
the latest sample up to the time, or else of the earliest one, or none if there are no samples. -/
theorem demand_trace_eq_iff (hvalues : ∀ s ∈ samples, s.1.isNaN = false) (age load : Binary64) :
    (trace samples).demand time age = load ↔ InForce samples time load := by
  have hpartitioned : ∀ r ∈ samples, ∀ s ∈ samples, inTimeOrder r s = true → s.1 ≤ time →
      r.1 ≤ time := fun r hr s hs hrs hle =>
    Binary64.le_trans (Binary64.le_of_inOrder (hvalues r hr) (hvalues s hs) hrs) hle
  rw [inForce_iff hvalues, demand_trace hpartitioned]

/-- Samples that are out of order, several of them for the same time and for either zero. -/
def sampleTrace : List (Binary64 × Binary64) :=
  [(5, 1), (0, 2), (-0, 3), (5, 4), (0, 5), (-0, 6)]

/-- At zero the last sample for zero is in force, although one for negative zero is listed behind it;
before all of them it is the first one for negative zero. -/
theorem demand_trace_eq_iff_sample :
    (∀ s ∈ sampleTrace, s.1.isNaN = false) ∧ InForce sampleTrace (-0) 5
      ∧ InForce sampleTrace 7 4 ∧ InForce sampleTrace (-1) 3 := by
  have hvalues : ∀ s ∈ sampleTrace, s.1.isNaN = false := by decide +kernel
  exact ⟨hvalues, (demand_trace_eq_iff hvalues 0 5).mp (by decide +kernel),
    (demand_trace_eq_iff hvalues 0 4).mp (by decide +kernel),
    (demand_trace_eq_iff hvalues 0 3).mp (by decide +kernel)⟩

end Datacenter.LoadModel
