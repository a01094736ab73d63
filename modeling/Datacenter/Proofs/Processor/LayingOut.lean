import Datacenter.Proofs.Processor.Reachable
import Datacenter.Proofs.Rational
import Mathlib.Tactic.NormNum
import Mathlib.Tactic.Ring

/-!
# Laying shares out on cores

Under time sharing the shares are poured onto the cores one after the other. Over exact numbers what
is left on the cores afterwards, their *room*, is known up to the amounts that are too small to be
worth another core:

* no more than what was wanted has been taken, and no more than what is said to be received
  (`TimeShared.room_layOut`);
* everything is said to be received that was wanted, or every core is used up but for a sliver
  (`TimeShared.layOut_eq_or_full`).

The two halves belong together. A share that lacks a sliver counts as served, so one cannot tell
from the shares alone what is left; but where one of them has been cut short nothing worth
mentioning is.
-/

namespace Datacenter

open Scalar

/-! ## One core -/

namespace Core

variable {c : Core ℚ} {amount : ℚ}

theorem available_eq (c : Core ℚ) :
    c.available = if c.isWorking then max (c.capacity - c.allocated) 0 else 0 := by
  rw [available, Rational.larger_eq]

theorem available_nonneg (c : Core ℚ) : 0 ≤ c.available := by
  rw [available_eq]
  split
  · exact le_max_right _ _
  · exact le_refl _

/-- A core gives what is asked for as long as it has that much left. -/
theorem allocate_outcome (hamount : 0 < amount) (hleft : 0 < c.available) :
    (c.allocate amount).1 = min amount c.available
      ∧ (c.allocate amount).2.available = c.available - min amount c.available := by
  have htaken : 0 < min amount c.available := lt_min hamount hleft
  have hworking : c.isWorking = true := by
    by_contra h
    rw [available_eq, if_neg h] at hleft
    exact lt_irrefl _ hleft
  have hrest : c.available = c.capacity - c.allocated := by
    rw [available_eq, if_pos hworking] at hleft ⊢
    exact max_eq_left ((lt_max_iff.mp hleft).resolve_right (lt_irrefl 0)).le
  have hallocate : c.allocate amount = (min amount c.available,
      { c with allocated := c.allocated + min amount c.available, status := .busy }) := by
    unfold allocate
    rw [Rational.larger_eq, Rational.smaller_eq, max_eq_left htaken.le]
    exact if_pos htaken
  rw [hallocate]
  refine ⟨rfl, ?_⟩
  have hbusy : ∀ x : ℚ, ({ c with allocated := x, status := .busy } : Core ℚ).available
      = max (c.capacity - x) 0 := fun x => by rw [available_eq]; rfl
  have hle := min_le_right amount c.available
  rw [hbusy, max_eq_left (by linarith), hrest]
  ring

end Core

namespace TimeShared

theorem sliver_pos : (0 : ℚ) < sliver := by
  unfold sliver
  norm_num

/-- A core on which nothing is left worth taking, or of which nothing is needed worth taking, is
passed over. -/
theorem fill_of_done {needed : ℚ} {core : Core ℚ}
    (hdone : needed ≤ sliver ∨ core.available ≤ sliver) (rounds : Nat) :
    fill rounds needed core = (needed, core) := by
  cases rounds with
  | zero => rfl
  | succ rounds =>
    unfold fill
    rw [if_neg]
    rw [Bool.and_eq_true, decide_eq_true_eq, decide_eq_true_eq]
    rintro ⟨hneeded, hleft⟩
    rcases hdone with h | h
    · exact not_lt.mpr h hneeded
    · exact not_lt.mpr h hleft

/-- One core gives some of what is needed, until nothing more is needed or it is used up. -/
theorem fill_outcome {needed : ℚ} (hneeded : 0 ≤ needed) (core : Core ℚ) :
    ∃ missing core', fill 3 needed core = (missing, core') ∧ 0 ≤ missing ∧ missing ≤ needed
      ∧ core'.available = core.available - (needed - missing)
      ∧ (missing ≤ sliver ∨ core'.available ≤ sliver) := by
  by_cases hdone : needed ≤ sliver ∨ core.available ≤ sliver
  case pos => exact ⟨needed, core, fill_of_done hdone 3, hneeded, le_refl _, by ring, hdone⟩
  case neg =>
    rw [not_or, not_le, not_le] at hdone
    obtain ⟨hlarge, hleft⟩ := hdone
    obtain ⟨htaken, hrest⟩ := Core.allocate_outcome (sliver_pos.trans hlarge)
      (sliver_pos.trans hleft)
    have hmin := min_le_left needed core.available
    -- the first round takes all there is to take, so the others take nothing
    have hnext : needed - (core.allocate needed).1 ≤ sliver
        ∨ (core.allocate needed).2.available ≤ sliver := by
      rw [htaken, hrest]
      rcases le_total needed core.available with h | h
      · left
        rw [min_eq_left h, sub_self]
        exact sliver_pos.le
      · right
        rw [min_eq_right h, sub_self]
        exact sliver_pos.le
    have hfill : fill 3 needed core
        = fill 2 (needed - (core.allocate needed).1) (core.allocate needed).2 := by
      conv_lhs => unfold fill
      exact if_pos (by simp [hlarge, hleft])
    refine ⟨_, _, hfill.trans (fill_of_done hnext 2), ?_, ?_, ?_, hnext⟩
    · rw [htaken]
      linarith
    · rw [htaken]
      have hpos := le_min hneeded core.available_nonneg
      linarith
    · rw [htaken, hrest]
      ring

/-! ## All cores -/

/-- What is left on some cores together. -/
def room (cores : List (Core ℚ)) : ℚ :=
  (cores.map (·.available)).sum

/-- Nothing worth mentioning is left on any core. -/
def IsFull (cores : List (Core ℚ)) : Prop :=
  ∀ c ∈ cores, c.available ≤ sliver

theorem room_cons (core : Core ℚ) (cores : List (Core ℚ)) :
    room (core :: cores) = core.available + room cores :=
  rfl

/-- Nothing is left on a core that is out of order. -/
theorem room_working (cores : List (Core ℚ)) : room (Core.working cores) = room cores := by
  induction cores with
  | nil => rfl
  | cons core cores ih =>
    rw [Core.working, List.filter_cons, ← Core.working, room_cons]
    split
    · rw [room_cons, ih]
    · rw [Core.available_eq, if_neg ‹_›, zero_add, ih]

theorem IsFull.room_le {cores : List (Core ℚ)} (hfull : IsFull cores) :
    room cores ≤ (Core.working cores).length * sliver := by
  have hslivers : ∀ x ∈ (Core.working cores).map (·.available), x ≤ sliver :=
    List.forall_mem_map.mpr fun c hc => hfull c (List.mem_of_mem_filter hc)
  rw [← room_working, room]
  simpa using List.sum_le_card_nsmul _ sliver hslivers

theorem pour_of_isFull {cores : List (Core ℚ)} (hfull : IsFull cores) (needed : ℚ) :
    pour needed cores = (needed, cores) := by
  induction cores with
  | nil => rfl
  | cons core cores ih =>
    obtain ⟨hcore, hrest⟩ := List.forall_mem_cons.mp hfull
    unfold pour
    rw [fill_of_done (.inr hcore)]
    dsimp only
    rw [ih hrest]

/-- The cores give some of what is needed, until nothing more is needed or all are used up. -/
theorem pour_outcome {needed : ℚ} (hneeded : 0 ≤ needed) (cores : List (Core ℚ)) :
    ∃ missing cores', pour needed cores = (missing, cores') ∧ 0 ≤ missing ∧ missing ≤ needed
      ∧ room cores' = room cores - (needed - missing) ∧ (missing ≤ sliver ∨ IsFull cores') := by
  induction cores generalizing needed with
  | nil => exact ⟨needed, [], rfl, hneeded, le_refl _, by ring, .inr fun _ hc => nomatch hc⟩
  | cons core cores ih =>
    obtain ⟨missing₁, core', hfill, hnonneg₁, hle₁, hroom₁, hdone₁⟩ := fill_outcome hneeded core
    obtain ⟨missing, cores', hpour, hnonneg, hle, hroom, hdone⟩ := ih hnonneg₁
    refine ⟨missing, core' :: cores', ?_, hnonneg, hle.trans hle₁, ?_, ?_⟩
    · unfold pour
      rw [hfill]
      dsimp only
      rw [hpour]
    · rw [room_cons, room_cons, hroom₁, hroom]
      ring
    · rcases hdone with hdone | hfull
      · exact .inl hdone
      · rcases hdone₁ with hdone₁ | hcore
        · exact .inl (hle.trans hdone₁)
        · exact .inr (List.forall_mem_cons.mpr ⟨hcore, hfull⟩)

/-! ## All shares -/

theorem map_fst_layOut (amounts : List (Nat × ℚ)) (cores : List (Core ℚ)) :
    (layOut amounts cores).1.map Prod.fst = amounts.map Prod.fst := by
  induction amounts generalizing cores with
  | nil => rfl
  | cons amount amounts ih => exact congrArg (amount.1 :: ·) (ih (pour amount.2 cores).2)

/-- A share is poured onto the cores, and then the others. -/
theorem layOut_cons {id : Nat} {wanted missing : ℚ} {cores cores' : List (Core ℚ)}
    (hpour : pour wanted cores = (missing, cores')) (amounts : List (Nat × ℚ)) :
    layOut ((id, wanted) :: amounts) cores
      = ((id, if sliver < missing then wanted - missing else wanted) :: (layOut amounts cores').1,
        (layOut amounts cores').2) := by
  conv_lhs => unfold layOut
  rw [hpour]

theorem layOut_of_isFull {cores : List (Core ℚ)} (hfull : IsFull cores)
    (amounts : List (Nat × ℚ)) : (layOut amounts cores).2 = cores := by
  induction amounts with
  | nil => rfl
  | cons amount amounts ih =>
    show (layOut amounts (pour amount.2 cores).2).2 = cores
    rw [pour_of_isFull hfull]
    exact ih

/-- No more has been taken from the cores than was wanted, and no more than was received. -/
theorem room_layOut {amounts : List (Nat × ℚ)} (hamounts : ∀ a ∈ amounts, 0 ≤ a.2)
    (cores : List (Core ℚ)) :
    room cores - (amounts.map Prod.snd).sum ≤ room (layOut amounts cores).2
      ∧ room cores - ((layOut amounts cores).1.map Prod.snd).sum
        ≤ room (layOut amounts cores).2 := by
  induction amounts generalizing cores with
  | nil => simp [layOut]
  | cons amount amounts ih =>
    obtain ⟨id, wanted⟩ := amount
    obtain ⟨hwanted, hrest⟩ := List.forall_mem_cons.mp hamounts
    obtain ⟨missing, cores', hpour, hnonneg, -, hroom, -⟩ := pour_outcome hwanted cores
    obtain ⟨hih, hih'⟩ := ih hrest cores'
    have hreceived : wanted - missing ≤ if sliver < missing then wanted - missing else wanted := by
      split <;> linarith
    rw [layOut_cons hpour]
    simp only [List.map_cons, List.sum_cons]
    constructor <;> linarith

/-- Everything that was wanted is received, unless the cores are used up. -/
theorem layOut_eq_or_full {amounts : List (Nat × ℚ)} (hamounts : ∀ a ∈ amounts, 0 ≤ a.2)
    (cores : List (Core ℚ)) :
    (layOut amounts cores).1 = amounts ∨ IsFull (layOut amounts cores).2 := by
  induction amounts generalizing cores with
  | nil => exact .inl rfl
  | cons amount amounts ih =>
    obtain ⟨id, wanted⟩ := amount
    obtain ⟨hwanted, hrest⟩ := List.forall_mem_cons.mp hamounts
    obtain ⟨missing, cores', hpour, -, -, -, hdone⟩ := pour_outcome hwanted cores
    rw [layOut_cons hpour]
    rcases hdone with hserved | hfull
    · rcases ih hrest cores' with hsame | hfull
      · left
        rw [if_neg (not_lt.mpr hserved), hsame]
      · exact .inr hfull
    · right
      rw [layOut_of_isFull hfull]
      exact hfull

end TimeShared

end Datacenter
