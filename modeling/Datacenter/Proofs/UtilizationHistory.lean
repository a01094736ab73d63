import Mathlib.Data.List.Chain
import Mathlib.Data.List.DropRight
import Datacenter.Binary64.Basic
import Datacenter.UtilizationHistory

/-!
# Histories are tails

What a history of limited size keeps is the end of what one without a limit would keep
(`UtilizationHistory.history_is_tail`). The history without a limit is described without recording
anything: the calls are cut into runs, each of them as long as the calls are for the time of its
first one (`UtilizationHistory.runsOf`), and every run leaves one sample, for that time and with the
value of its last call (`UtilizationHistory.collapse`).

## Shape of the proof

* `push` records a sample without a limit. One call keeps a history the beginning of what is pushed,
  newest first (`IsTailOf.add`): the latest sample is never the one that is dropped, since there is
  room for at least one, so replacing it and dropping the oldest ones do not get in each other's
  way. All calls then keep it so (`IsTailOf.recordAll`).
* Pushing all calls of a run leaves its sample, and the first call of the next run does not touch it
  (`foldl_push`).

Nothing is assumed about when times are equal. A time may differ from itself, and then every call
for it is a run of its own.
-/

namespace Datacenter.UtilizationHistory

variable {α : Type} [Scalar α]

/-! ## Runs of calls -/

/-- The calls cut into runs: a first call, and those right after it that are for the same time. -/
def runsOf : List (α × α) → List ((α × α) × List (α × α))
  | [] => []
  | call :: calls =>
    (call, calls.takeWhile (call.1 == ·.1)) :: runsOf (calls.dropWhile (call.1 == ·.1))
termination_by calls => calls.length
decreasing_by exact Nat.lt_succ_of_le (List.dropWhile_sublist _).length_le

/-- The sample that a run leaves: the time of its first call with the value of its last one. -/
def sampleOf (run : (α × α) × List (α × α)) : α × α :=
  (run.1.1, (run.2.getLast?.getD run.1).2)

/-- One sample for each run of calls, the oldest one first. -/
def collapse (calls : List (α × α)) : List (α × α) :=
  (runsOf calls).map sampleOf

theorem collapse_cons (call : α × α) (calls : List (α × α)) :
    collapse (call :: calls) = sampleOf (call, calls.takeWhile (call.1 == ·.1))
      :: collapse (calls.dropWhile (call.1 == ·.1)) := by
  rw [collapse, runsOf, List.map_cons, collapse]

/-- The calls after a run begin with one for another time. -/
theorem beq_eq_false_of_head?_dropWhile {call next : α × α} {calls : List (α × α)}
    (hnext : (calls.dropWhile (call.1 == ·.1)).head? = some next) :
    (call.1 == next.1) = false := by
  have hnot := List.head?_dropWhile_not (call.1 == ·.1) calls
  rw [hnext] at hnot
  simpa using hnot

/-- Records calls one after the other. -/
def recordAll (h : UtilizationHistory α) (calls : List (α × α)) : UtilizationHistory α :=
  calls.foldl (fun h call => h.add call.1 call.2) h

@[simp] theorem limit_add (h : UtilizationHistory α) (time value : α) :
    (h.add time value).limit = h.limit := by
  unfold add
  split
  · rfl
  · split <;> rfl

@[simp] theorem limit_recordAll (h : UtilizationHistory α) (calls : List (α × α)) :
    (h.recordAll calls).limit = h.limit := by
  induction calls generalizing h with
  | nil => rfl
  | cons call calls ih => exact (ih _).trans (h.limit_add call.1 call.2)

/-! ## Recording without a limit -/

/-- Records a sample, the latest one first, and drops none. -/
def push (samples : List (α × α)) (call : α × α) : List (α × α) :=
  match samples with
  | [] => [call]
  | latest :: older =>
    if latest.1 == call.1 then (latest.1, call.2) :: older else call :: latest :: older

/-- The history keeps as many of the latest samples as it has room for. -/
def IsTailOf (h : UtilizationHistory α) (samples : List (α × α)) : Prop :=
  h.newestFirst = samples.take h.limit

/-- A history with room for a sample keeps the latest ones when one more is recorded. -/
theorem IsTailOf.add {h : UtilizationHistory α} {samples : List (α × α)} (hlimit : 1 ≤ h.limit)
    (htail : h.IsTailOf samples) (call : α × α) :
    (h.add call.1 call.2).IsTailOf (push samples call) := by
  obtain ⟨newest, limit⟩ := h
  obtain ⟨room, rfl⟩ := Nat.exists_eq_add_of_le' hlimit
  obtain rfl : newest = samples.take (room + 1) := htail
  cases samples with
  | nil => rfl
  | cons latest older =>
    by_cases hsame : (latest.1 == call.1) = true
    · simp [IsTailOf, UtilizationHistory.add, push, hsame]
    · have hkept : (latest :: older.take room).take room = (latest :: older).take room := by
        rw [← List.take_succ_cons, List.take_take, Nat.min_eq_left (Nat.le_succ room)]
      simp [IsTailOf, UtilizationHistory.add, push, hsame, hkept]

theorem IsTailOf.recordAll {h : UtilizationHistory α} {samples : List (α × α)}
    (hlimit : 1 ≤ h.limit) (htail : h.IsTailOf samples) (calls : List (α × α)) :
    (h.recordAll calls).IsTailOf (calls.foldl push samples) := by
  induction calls generalizing h samples with
  | nil => exact htail
  | cons call calls ih => exact ih (by rwa [limit_add]) (htail.add hlimit call)

/-- Calls for the time of the latest sample leave the value of the last one. -/
theorem foldl_push_same {latest : α × α} {same : List (α × α)}
    (hsame : ∀ call ∈ same, (latest.1 == call.1) = true) (older : List (α × α)) :
    same.foldl push (latest :: older) = sampleOf (latest, same) :: older := by
  induction same generalizing latest with
  | nil => rfl
  | cons call same ih =>
    obtain ⟨hcall, hrest⟩ := List.forall_mem_cons.mp hsame
    have hpush : push (latest :: older) call = (latest.1, call.2) :: older := by simp [push, hcall]
    rw [List.foldl_cons, hpush, @ih (latest.1, call.2) hrest]
    cases same with
    | nil => rfl
    | cons => simp [sampleOf, List.getLast?_cons]

/-- Calls of which the first one is not for the time of the latest sample leave one sample for each
run, in front of those that are there. -/
theorem foldl_push {samples : List (α × α)} (calls : List (α × α))
    (hnew : ∀ latest ∈ samples.head?, ∀ call ∈ calls.head?, (latest.1 == call.1) = false) :
    calls.foldl push samples = (collapse calls).reverse ++ samples := by
  induction calls using runsOf.induct generalizing samples with
  | case1 => rw [List.foldl_nil, collapse, runsOf, List.map_nil, List.reverse_nil, List.nil_append]
  | case2 call calls ih =>
    have hfirst : push samples call = call :: samples := by
      cases samples with
      | nil => rfl
      | cons latest older => simp [push, hnew latest rfl call rfl]
    have hrun : (calls.takeWhile (call.1 == ·.1)).foldl push (call :: samples)
        = sampleOf (call, calls.takeWhile (call.1 == ·.1)) :: samples :=
      foldl_push_same (fun _ hc => (List.mem_takeWhile_imp hc :)) samples
    have hrest : (calls.dropWhile (call.1 == ·.1)).foldl push
        (sampleOf (call, calls.takeWhile (call.1 == ·.1)) :: samples)
        = (collapse (calls.dropWhile (call.1 == ·.1))).reverse
          ++ sampleOf (call, calls.takeWhile (call.1 == ·.1)) :: samples := by
      refine ih fun latest hlatest next hnext => ?_
      cases hlatest
      exact beq_eq_false_of_head?_dropWhile hnext
    calc (call :: calls).foldl push samples
      _ = (calls.takeWhile (call.1 == ·.1) ++ calls.dropWhile (call.1 == ·.1)).foldl push
            (call :: samples) := by
          rw [List.foldl_cons, hfirst, List.takeWhile_append_dropWhile]
      _ = (collapse (call :: calls)).reverse ++ samples := by
          rw [List.foldl_append, hrun, hrest, collapse_cons, List.reverse_cons, List.append_assoc,
            List.singleton_append]

/-! ## Neighbours -/

/-- Neighbouring runs are for different times. -/
theorem isChain_collapse (calls : List (α × α)) :
    (collapse calls).IsChain fun s t => (s.1 == t.1) = false := by
  induction calls using runsOf.induct with
  | case1 => rw [collapse, runsOf]; exact .nil
  | case2 call calls ih =>
    rw [collapse_cons]
    cases hrest : calls.dropWhile (call.1 == ·.1) with
    | nil => rw [collapse, runsOf]; exact .singleton _
    | cons next rest =>
      rw [hrest, collapse_cons] at ih
      rw [collapse_cons]
      have hnext : (call.1 == next.1) = false :=
        beq_eq_false_of_head?_dropWhile (congrArg List.head? hrest)
      exact .cons_cons hnext ih

/-- A history is created exactly if room can be set aside for its size. Of any size it keeps the end
of the samples that the runs of calls leave, as many as its size but at least one. No two neighbours
are for the same time, and the values are those of the samples, backwards. -/
theorem history_is_tail (size : Nat) (calls : List (α × α)) :
    (∀ h : UtilizationHistory α, create size = .ok h ↔ size ≤ largestSize ∧ h = empty size)
      ∧ ((empty size).recordAll calls).samples = (collapse calls).rtake (max size 1)
      ∧ ((empty size).recordAll calls).samples.IsChain (fun s t => (s.1 == t.1) = false)
      ∧ ((empty size).recordAll calls).values
        = (((collapse calls).rtake (max size 1)).map Prod.snd).reverse := by
  have hempty : (empty (α := α) size).IsTailOf [] := List.take_nil.symm
  have htail := hempty.recordAll (Nat.le_max_right size 1) calls
  rw [IsTailOf, limit_recordAll, foldl_push calls (by simp), List.append_nil] at htail
  have hsamples : ((empty size).recordAll calls).samples
      = (collapse calls).rtake (max size 1) := by
    rw [samples, htail, List.rtake_eq_reverse_take_reverse]
    rfl
  refine ⟨fun h => create_eq_ok, hsamples, ?_, ?_⟩
  · rw [hsamples, List.rtake]
    exact (isChain_collapse calls).suffix (List.drop_suffix _ _)
  · rw [← hsamples, samples, List.map_reverse, List.reverse_reverse, values]

/-- The two zeros are one time, and the first of them is kept; what is no value is another time at
every call. -/
example : ((empty 3).recordAll [(1, 5), (-0, 1), (0, 2), (.nan, 3), (.nan, 4)]).samples
    = [(-0, 2), (Binary64.nan, 3), (.nan, (4 : Binary64))] := by decide +kernel

end Datacenter.UtilizationHistory
