import Datacenter.Proofs.Processor.History
import Datacenter.Proofs.Processor.Serving
import Datacenter.Proofs.Threshold
import Mathlib.Data.List.Forall2

/-!
# Accounts of time sharing

Over exact numbers the cores and the shares of a processor under time sharing can be accounted for
(`Processor.Accounts`). No core carries more than its capacity, no virtual core receives more than
it is entitled to, and what is lost on the way is bounded by slivers. All virtual cores together
fall short by no more than one for each working core, since nobody falls short before all cores are
used up but for a sliver. What is carried and what is received differ by no more than one for each
virtual core.

What is carried and what is left on a core make up its capacity, so the cores are accounted for by
what is left on them (`TimeShared.room_layOut`).
-/

namespace Datacenter

open Scalar

/-! ## Cores -/

namespace Core

/-- What is allocated on a core fits on it, and is nothing if the core is out of order. -/
structure IsSound (c : Core ℚ) : Prop where
  nonneg : 0 ≤ c.allocated
  le_capacity : c.allocated ≤ c.capacity
  failed : c.isWorking = false → c.allocated = 0

variable {c : Core ℚ}

theorem isSound_reset (hc : 0 ≤ c.capacity) : c.reset.IsSound :=
  ⟨le_refl (0 : ℚ), hc, fun _ => rfl⟩

theorem isSound_allocate (hc : c.IsSound) (amount : ℚ) : (c.allocate amount).2.IsSound := by
  unfold allocate
  dsimp only
  rw [Rational.larger_eq, Rational.smaller_eq]
  split
  · rename_i htaken
    have hleft : 0 < c.available := (lt_min_iff.mp ((lt_max_iff.mp htaken).resolve_right
      (lt_irrefl 0))).2
    have htaken' : max (min amount c.available) 0 ≤ c.available :=
      max_le (min_le_right _ _) hleft.le
    have hworking : c.isWorking = true := by
      by_contra hfailed
      rw [available_eq, if_neg hfailed] at hleft
      exact lt_irrefl _ hleft
    have hrest : c.available = c.capacity - c.allocated := by
      rw [available_eq, if_pos hworking]
      exact max_eq_left (sub_nonneg.mpr hc.le_capacity)
    refine ⟨add_nonneg hc.nonneg htaken.le, ?_, fun hfailed => nomatch hfailed⟩
    show c.allocated + max (min amount c.available) 0 ≤ c.capacity
    linarith
  · exact hc

/-- What is left on a core and what is allocated on it are all of its capacity. -/
theorem IsSound.available_add (hc : c.IsSound) :
    c.available + c.allocated = if c.isWorking then c.capacity else 0 := by
  rw [available_eq]
  split
  · rw [max_eq_left (sub_nonneg.mpr hc.le_capacity), sub_add_cancel]
  · rw [hc.failed (Bool.eq_false_iff.mpr ‹_›), add_zero]

end Core

namespace TimeShared

variable {cores : List (Core ℚ)}

theorem isSound_fill {core : Core ℚ} (hcore : core.IsSound) (rounds : Nat) (needed : ℚ) :
    (fill rounds needed core).2.IsSound := by
  induction rounds generalizing needed core with
  | zero => exact hcore
  | succ rounds ih =>
    unfold fill
    split
    · exact ih (Core.isSound_allocate hcore needed) _
    · exact hcore

theorem isSound_pour (hcores : ∀ c ∈ cores, c.IsSound) (needed : ℚ) :
    ∀ c ∈ (pour needed cores).2, c.IsSound := by
  induction cores generalizing needed with
  | nil => exact fun _ hc => nomatch hc
  | cons core cores ih =>
    obtain ⟨hcore, hcores⟩ := List.forall_mem_cons.mp hcores
    exact List.forall_mem_cons.mpr ⟨isSound_fill hcore 3 needed, ih hcores _⟩

theorem isSound_layOut (hcores : ∀ c ∈ cores, c.IsSound) (amounts : List (Nat × ℚ)) :
    ∀ c ∈ (layOut amounts cores).2, c.IsSound := by
  induction amounts generalizing cores with
  | nil => exact hcores
  | cons amount amounts ih => exact ih (isSound_pour hcores amount.2)

/-- What is left on the cores and what is allocated on them are all of their capacity. -/
theorem room_add_allocated (hcores : ∀ c ∈ cores, c.IsSound) :
    room cores + (cores.map (·.allocated)).sum = capacity cores := by
  rw [capacity, Rational.sum_eq]
  induction cores with
  | nil => simp [room, Core.working]
  | cons c cores ih =>
    obtain ⟨hc, hcores⟩ := List.forall_mem_cons.mp hcores
    have hsum := hc.available_add
    have hrest := ih hcores
    rw [room_cons, List.map_cons, List.sum_cons, Core.working, List.filter_cons, ← Core.working]
    split at hsum
    · rw [if_pos ‹_›, List.map_cons, List.sum_cons]
      linarith
    · rw [if_neg ‹_›]
      linarith

/-! ## Shares -/

/-- Nobody receives more than is due, in the order in which it is due. -/
def Within (received due : List (Nat × ℚ)) : Prop :=
  List.Forall₂ (fun r d => r.1 = d.1 ∧ r.2 ≤ d.2) received due

/-- What is due and not received, by all virtual cores together. -/
def shortfall (received due : List (Nat × ℚ)) : ℚ :=
  (List.zipWith (fun r d => d.2 - r.2) received due).sum

theorem Within.shortfall_eq {received due : List (Nat × ℚ)} (h : Within received due) :
    shortfall received due = (due.map Prod.snd).sum - (received.map Prod.snd).sum := by
  induction h with
  | nil => simp [shortfall]
  | @cons r d received due _ _ ih =>
    have hcons : shortfall (r :: received) (d :: due) = d.2 - r.2 + shortfall received due := rfl
    rw [hcons, ih, List.map_cons, List.map_cons, List.sum_cons, List.sum_cons]
    ring

theorem within_layOut {amounts : List (Nat × ℚ)} (hamounts : ∀ a ∈ amounts, 0 ≤ a.2)
    (cores : List (Core ℚ)) : Within (layOut amounts cores).1 amounts := by
  induction amounts generalizing cores with
  | nil => exact .nil
  | cons amount amounts ih =>
    obtain ⟨id, wanted⟩ := amount
    obtain ⟨hwanted, hrest⟩ := List.forall_mem_cons.mp hamounts
    obtain ⟨missing, cores', hpour, hnonneg, -, -, -⟩ := pour_outcome hwanted cores
    rw [layOut_cons hpour]
    refine .cons ⟨rfl, ?_⟩ (ih hrest cores')
    dsimp only
    split <;> linarith

/-- What is received is taken from the cores but for a sliver each. -/
theorem received_le_taken {amounts : List (Nat × ℚ)} (hamounts : ∀ a ∈ amounts, 0 ≤ a.2)
    (cores : List (Core ℚ)) : ((layOut amounts cores).1.map Prod.snd).sum
      ≤ room cores - room (layOut amounts cores).2 + amounts.length * sliver := by
  induction amounts generalizing cores with
  | nil => simp [layOut]
  | cons amount amounts ih =>
    obtain ⟨id, wanted⟩ := amount
    obtain ⟨hwanted, hrest⟩ := List.forall_mem_cons.mp hamounts
    obtain ⟨missing, cores', hpour, hnonneg, -, hroom, -⟩ := pour_outcome hwanted cores
    have hreceived : (if sliver < missing then wanted - missing else wanted)
        ≤ wanted - missing + sliver := by
      split
      · linarith [sliver_pos]
      · linarith
    have hothers := ih hrest cores'
    rw [layOut_cons hpour]
    simp only [List.map_cons, List.sum_cons, List.length_cons, Nat.cast_add, Nat.cast_one]
    linarith

/-- Nobody is entitled to more than the shares, which fit into the capacity. -/
theorem sum_entitlements_le {l : Ledger ℚ} (hoverhead : 0 ≤ l.overhead) (cores : List (Core ℚ)) :
    ((entitlements cores l).map Prod.snd).sum ≤ max (capacity cores) 0 := by
  obtain ⟨hnonneg, hfits⟩ := shares_bounds cores l
  have hfraction : ∀ (ds : List (Nat × ℚ)) (ss : List ℚ), (∀ s ∈ ss, 0 ≤ s) →
      ((List.zipWith (fun d s => (d.1, s * l.factor d.1)) ds ss).map Prod.snd).sum ≤ ss.sum := by
    intro ds
    induction ds with
    | nil => exact fun ss hss => List.sum_nonneg hss
    | cons d ds ih =>
      intro ss hss
      cases ss with
      | nil => exact le_refl (0 : ℚ)
      | cons s ss =>
        obtain ⟨hs, hss⟩ := List.forall_mem_cons.mp hss
        have hhead := mul_le_of_le_one_right hs (Ledger.factor_le_one hoverhead d.1)
        exact add_le_add hhead (ih ss hss)
  exact (hfraction (demands cores l) (shares cores l) hnonneg).trans hfits

/-- All shortfalls together are at most a sliver for each working core. -/
theorem shortfall_le {l : Ledger ℚ} (hoverhead : 0 ≤ l.overhead ∧ l.overhead ≤ 1)
    (cores : List (Core ℚ)) :
    shortfall (layOut (entitlements cores l) (cores.map Core.reset)).1 (entitlements cores l)
      ≤ (Core.working cores).length * sliver := by
  have hnonneg := entitlements_nonneg hoverhead.2 cores
  rw [(within_layOut hnonneg (cores.map Core.reset)).shortfall_eq]
  rcases layOut_eq_or_full hnonneg (cores.map Core.reset) with hall | hfull
  · rw [hall, sub_self]
    exact mul_nonneg (Nat.cast_nonneg _) sliver_pos.le
  · -- what has not been received is left on the cores
    have hdue := (sum_entitlements_le hoverhead.1 cores).trans (capacity_le_room_reset cores)
    have hreceived := (room_layOut hnonneg (cores.map Core.reset)).2
    have hleft := hfull.room_le
    have hmakeup : makeup (layOut (entitlements cores l) (cores.map Core.reset)).2 = makeup cores :=
      makeup_share cores l
    rw [length_working_congr hmakeup] at hleft
    linarith

/-! ## Books by machine -/

/-- Amounts that stand in the order of their owners are found again owner by owner. -/
theorem flatMap_filter_owner {β : Type} {share : β → List ℚ} {entries : List (Nat × β)}
    (hnodup : (entries.map Prod.fst).Nodup) {amounts : List (Nat × ℚ)}
    (howners : amounts.map Prod.fst = entries.flatMap fun e => (share e.2).map fun _ => e.1) :
    (entries.flatMap fun e => amounts.filter (·.1 == e.1)) = amounts := by
  induction entries generalizing amounts with
  | nil =>
    obtain rfl := List.map_eq_nil_iff.mp howners
    rfl
  | cons e entries ih =>
    obtain ⟨he, hentries⟩ := List.nodup_cons.mp hnodup
    rw [List.flatMap_cons] at howners
    obtain ⟨own, others, rfl, hown, hothers⟩ := List.map_eq_append_iff.mp howners
    have hmine : ∀ a ∈ own, a.1 = e.1 := by
      intro a ha
      have hmem : a.1 ∈ (share e.2).map fun _ => e.1 := hown ▸ List.mem_map_of_mem ha
      obtain ⟨-, -, hfst⟩ := List.mem_map.mp hmem
      exact hfst.symm
    have hforeign : ∀ a ∈ others, ∃ e' ∈ entries, a.1 = e'.1 := by
      intro a ha
      have hmem : a.1 ∈ entries.flatMap fun e => (share e.2).map fun _ => e.1 :=
        hothers ▸ List.mem_map_of_mem ha
      obtain ⟨e', he', hmem⟩ := List.mem_flatMap.mp hmem
      obtain ⟨-, -, hfst⟩ := List.mem_map.mp hmem
      exact ⟨e', he', hfst.symm⟩
    have hfirst : (own ++ others).filter (·.1 == e.1) = own := by
      rw [List.filter_append, List.filter_eq_self.mpr (by simpa using hmine),
        List.filter_eq_nil_iff.mpr, List.append_nil]
      intro a ha hsame
      obtain ⟨e', he', hfst⟩ := hforeign a ha
      exact he ((beq_iff_eq.mp hsame ▸ hfst) ▸ List.mem_map_of_mem he')
    have hrest : ∀ e' ∈ entries,
        (own ++ others).filter (·.1 == e'.1) = others.filter (·.1 == e'.1) := by
      intro e' he'
      rw [List.filter_append, List.filter_eq_nil_iff.mpr, List.nil_append]
      intro a ha hsame
      have hsame : e.1 = e'.1 := (hmine a ha).symm.trans (beq_iff_eq.mp hsame)
      exact he (hsame ▸ List.mem_map_of_mem he')
    rw [List.flatMap_cons, hfirst, List.flatMap_congr hrest, ih hentries hothers]

theorem map_fst_entitlements (cores : List (Core ℚ)) (l : Ledger ℚ) :
    (entitlements cores l).map Prod.fst
      = l.requests.toList.flatMap fun e => e.2.share.map fun _ => e.1 := by
  have hlength : (demands cores l).length ≤ (shares cores l).length := by
    rw [shares, length_shareCapacity, List.length_map]
  calc (entitlements cores l).map Prod.fst
      = (((demands cores l).zip (shares cores l)).map Prod.fst).map Prod.fst := by
        rw [entitlements_eq_map, List.map_map, List.map_map]
        rfl
    _ = (demands cores l).map Prod.fst := by rw [List.map_fst_zip hlength]
    _ = l.requests.toList.flatMap fun e => e.2.share.map fun _ => e.1 := by
        rw [demands, List.map_flatMap]
        simp only [List.map_map, Function.comp_def]

end TimeShared

/-! ## Processors -/

namespace Processor

variable {p : Processor ℚ}

/-- What every virtual core has received, with the id of its owner, in the order of the ids. -/
def received (p : Processor ℚ) : List (Nat × ℚ) :=
  p.allocations.toList.flatMap fun e => e.2.map fun x => (e.1, x)

/-- The machines have received what has been laid out. -/
theorem received_of_shared (hp : p.Reachable) (hd : p.discipline = .timeShared) :
    p.received = (TimeShared.layOut (TimeShared.entitlements p.cores p.ledger)
      (p.cores.map Core.reset)).1 := by
  rw [received, allocations_of_shared hp hd]
  generalize hlaid : (TimeShared.layOut (TimeShared.entitlements p.cores p.ledger)
    (p.cores.map Core.reset)).1 = laid
  have hshare : (TimeShared.share p.cores p.ledger).1.toList = p.ledger.requests.toList.map
      fun e => (e.1, (laid.filter (·.1 == e.1)).map Prod.snd) := by
    rw [← hlaid]
    rfl
  have howners : laid.map Prod.fst
      = p.ledger.requests.toList.flatMap fun e => e.2.share.map fun _ => e.1 := by
    rw [← hlaid, TimeShared.map_fst_layOut, TimeShared.map_fst_entitlements]
  rw [hshare, List.flatMap_map]
  calc (p.ledger.requests.toList.flatMap fun e =>
        ((laid.filter (·.1 == e.1)).map Prod.snd).map fun x => (e.1, x))
      = p.ledger.requests.toList.flatMap fun e => laid.filter (·.1 == e.1) := by
        refine List.flatMap_congr fun e _ => ?_
        have hmine : ∀ a ∈ laid.filter (·.1 == e.1), (e.1, a.2) = a := by
          intro a ha
          have hfst : a.1 = e.1 := beq_iff_eq.mp (List.mem_filter.mp ha).2
          rw [← hfst]
        rw [List.map_map]
        exact (List.map_congr_left hmine).trans (List.map_id _)
    _ = laid := TimeShared.flatMap_filter_owner p.ledger.requests.nodup_keys howners

/-- A sliver for each working core. -/
def tolerance (p : Processor ℚ) : ℚ :=
  p.workingCount * TimeShared.sliver

/-- What is carried by the cores, what is received and what is due agree up to slivers. -/
structure Accounts (p : Processor ℚ) : Prop where
  cores : ∀ c ∈ p.cores, c.IsSound
  within : TimeShared.Within p.received (TimeShared.entitlements p.cores p.ledger)
  shortfall : TimeShared.shortfall p.received (TimeShared.entitlements p.cores p.ledger)
    ≤ p.tolerance
  carried : |(p.cores.map (·.allocated)).sum - (p.received.map Prod.snd).sum|
    ≤ p.received.length * TimeShared.sliver

/-- Nobody receives more than is due, and all together fall short by slivers only. -/
theorem received_within (hp : p.Reachable) (hd : p.discipline = .timeShared) :
    TimeShared.Within p.received (TimeShared.entitlements p.cores p.ledger)
      ∧ TimeShared.shortfall p.received (TimeShared.entitlements p.cores p.ledger)
        ≤ p.tolerance := by
  obtain ⟨-, hlow, hhigh⟩ := (checkFraction_eq_ok.mp hp.overhead).1
  rw [received_of_shared hp hd]
  exact ⟨TimeShared.within_layOut (TimeShared.entitlements_nonneg hhigh p.cores) _,
    TimeShared.shortfall_le ⟨hlow, hhigh⟩ p.cores⟩

theorem accounts_of_reachable (hp : p.Reachable) (hd : p.discipline = .timeShared)
    (hcores : ∀ c ∈ p.cores, 0 ≤ c.capacity) : p.Accounts := by
  obtain ⟨-, -, hhigh⟩ := (checkFraction_eq_ok.mp hp.overhead).1
  have hdue := TimeShared.entitlements_nonneg hhigh p.cores
  have hidle : ∀ c ∈ p.cores.map Core.reset, c.IsSound :=
    List.forall_mem_map.mpr fun c hc => Core.isSound_reset (hcores c hc)
  have hsound : ∀ c ∈ p.cores, c.IsSound := by
    rw [cores_of_shared hp hd]
    exact TimeShared.isSound_layOut hidle _
  have hreceived := received_of_shared hp hd
  obtain ⟨hwithin, hshortfall⟩ := received_within hp hd
  refine ⟨hsound, hwithin, hshortfall, ?_⟩
  have hroom := (TimeShared.room_layOut hdue (p.cores.map Core.reset)).2
  have htaken := TimeShared.received_le_taken hdue (p.cores.map Core.reset)
  have hlength := congrArg List.length
    (TimeShared.map_fst_layOut (TimeShared.entitlements p.cores p.ledger)
      (p.cores.map Core.reset))
  have hcarried := TimeShared.room_add_allocated hsound
  have hcores' : (TimeShared.layOut (TimeShared.entitlements p.cores p.ledger)
      (p.cores.map Core.reset)).2 = p.cores := (cores_of_shared hp hd).symm
  rw [List.length_map, List.length_map, ← hreceived] at hlength
  rw [TimeShared.room_reset hcores, hcores', ← hreceived] at hroom htaken
  rw [← hlength] at htaken
  rw [abs_le]
  constructor <;> linarith

end Processor

end Datacenter
