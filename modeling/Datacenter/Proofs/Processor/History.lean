import Mathlib.Data.Nat.Cast.Defs
import Datacenter.Proofs.Binary64.Rounding
import Datacenter.Proofs.Processor.Runs

/-!
# Time sharing has no memory

Under time sharing the allocations and the cores of a reachable processor are those that a
computation of the shares gives (`allocations_of_shared`, `cores_of_shared`), and that computation
looks at the ledger and the make-up of the cores only. So two runs from one fresh processor that end
with the same books and the same failed cores end with the same shares, whatever has happened on the
way (`shares_independent_of_history`).
-/

namespace Datacenter

variable {α : Type} [Scalar α]

namespace Ledger

omit [Scalar α] in
/-- A request that is registered again takes its own place. -/
theorem register_register (l : Ledger α) (vm : Vm α) (requested : List α) :
    (l.register vm requested).register vm requested = l.register vm requested := by
  have hsame : (l.requests.insert vm.id ⟨requested, vm.isMigrating⟩).insert vm.id
      ⟨requested, vm.isMigrating⟩ = l.requests.insert vm.id ⟨requested, vm.isMigrating⟩ :=
    IdMap.ext_find? fun k => by
      rw [IdMap.find?_insert, IdMap.find?_insert]
      split <;> rfl
  rw [register, register, hsame]

end Ledger

namespace Processor

variable {p q : Processor α}

section

variable [Std.Irrefl (α := α) (· < ·)]

/-! ## Shares that are up to date -/

theorem allocations_of_shared (hp : p.Reachable) (hd : p.discipline = .timeShared) :
    p.allocations = (TimeShared.share p.cores p.ledger).1 := by
  have hcurrent := reshare_of_reachable hp
  simp only [reshare, hd] at hcurrent
  exact (congrArg allocations hcurrent).symm

theorem cores_of_shared (hp : p.Reachable) (hd : p.discipline = .timeShared) :
    p.cores = (TimeShared.share p.cores p.ledger).2 := by
  have hcurrent := reshare_of_reachable hp
  simp only [reshare, hd] at hcurrent
  exact (congrArg cores hcurrent).symm

/-- Under time sharing the ledger and the make-up of the cores decide about everything else. -/
theorem eq_of_books (hp : p.Reachable) (hq : q.Reachable) (hpd : p.discipline = .timeShared)
    (hqd : q.discipline = .timeShared) (hledger : p.ledger = q.ledger)
    (hmakeup : makeup p.cores = makeup q.cores) :
    p.allocations = q.allocations ∧ p.cores = q.cores := by
  have hshare : TimeShared.share p.cores p.ledger = TimeShared.share q.cores q.ledger := by
    rw [TimeShared.share_congr hmakeup, hledger]
  constructor
  · calc p.allocations = (TimeShared.share p.cores p.ledger).1 := allocations_of_shared hp hpd
      _ = (TimeShared.share q.cores q.ledger).1 := by rw [hshare]
      _ = q.allocations := (allocations_of_shared hq hqd).symm
  · calc p.cores = (TimeShared.share p.cores p.ledger).2 := cores_of_shared hp hpd
      _ = (TimeShared.share q.cores q.ledger).2 := by rw [hshare]
      _ = q.cores := (cores_of_shared hq hqd).symm

omit [Scalar α] [Std.Irrefl (α := α) (· < ·)] in
/-- Cores of the same capacities of which the same ones have failed have one make-up. -/
theorem makeup_eq_of_failed {cores cores' : List (Core α)}
    (hcapacities : cores.map (·.capacity) = cores'.map (·.capacity))
    (hfailed : ∀ (i : Nat) (c c' : Core α), cores[i]? = some c → cores'[i]? = some c' →
      (c.status = .failed ↔ c'.status = .failed)) : makeup cores = makeup cores' := by
  apply List.ext_getElem?
  intro i
  have hcapacity := congrArg (fun l => l[i]?) hcapacities
  simp only [makeup, List.getElem?_map] at hcapacity ⊢
  cases hc : cores[i]? with
  | none =>
    rw [hc] at hcapacity
    cases hc' : cores'[i]? with
    | none => rfl
    | some c' => rw [hc'] at hcapacity; contradiction
  | some c =>
    rw [hc] at hcapacity
    obtain ⟨c', hc', hsame⟩ := Option.map_eq_some_iff.mp hcapacity.symm
    have hworking : c.isWorking = c'.isWorking := by
      rw [Core.isWorking, Core.isWorking, Bool.eq_iff_iff, bne_iff_ne, bne_iff_ne]
      exact not_congr (hfailed i c c' hc hc')
    rw [hc', Option.map_some, Option.map_some, Core.profile, Core.profile, hsame, hworking]

/-! ## Requests that are made again, and processors that are cleared -/

omit [Std.Irrefl (α := α) (· < ·)] in
theorem admission?_of_timeShared {discipline : Discipline} {vm : Vm α} {requested : List α}
    (hd : p.discipline = .timeShared) (h : p.admission? vm requested = some discipline) :
    TimeShared.admits p.cores vm requested = true ∧ discipline = .timeShared := by
  simp only [admission?, hd] at h
  split at h
  · exact ⟨‹_›, (Option.some.inj h).symm⟩
  · contradiction

/-- A request that has been admitted or refused is answered in the same way again, and then changes
nothing. -/
theorem perform_request_again (hd : p.discipline = .timeShared) {vm : Vm α} {requested : List α}
    (hq : p.perform (.request vm requested) = .ok q) :
    q.perform (.request vm requested) = .ok q := by
  obtain rfl := Except.ok.inj hq
  cases hgranted : p.admit? vm requested with
  | none =>
    show Except.ok ((p.admit? vm requested).getD p) = _
    rw [hgranted]
  | some q =>
    have hagain : q.admit? vm requested = some q := by
      obtain ⟨discipline, hadmission, rfl⟩ := Option.map_eq_some_iff.mp hgranted
      obtain ⟨hadmits, rfl⟩ := admission?_of_timeShared hd hadmission
      generalize hq : withLedger { p with discipline := .timeShared }
        (p.ledger.register vm requested) = q
      have hmakeup : makeup q.cores = makeup p.cores := hq ▸ makeup_withLedger ..
      have hledger : q.ledger = p.ledger.register vm requested := hq ▸ withLedger_ledger ..
      have hshared : q.discipline = .timeShared := by
        apply discipline_of_shared
        rw [← hq, withLedger, isDedicated_reshare]
        rfl
      have hworking : (Core.working q.cores).length = (Core.working p.cores).length :=
        workingCount_congr hmakeup
      have hnew : q.ledger.register vm requested = q.ledger := by
        rw [hledger, Ledger.register_register]
      have hsame : { q with discipline := .timeShared } = q := by rw [← hshared]
      have hcurrent : q.reshare = q := hq ▸ reshare_reshare _
      rw [admit?, admission?, hshared]
      dsimp only
      rw [TimeShared.admits, hworking, ← TimeShared.admits, if_pos hadmits, Option.map_some, hsame,
        hnew]
      exact congrArg some hcurrent
    show Except.ok ((q.admit? vm requested).getD q) = _
    rw [Option.getD_some, hagain]
    rfl

omit [Std.Irrefl (α := α) (· < ·)] in
/-- Nothing is left on the cores once everything has been released. -/
theorem cores_releaseAll (hd : p.discipline = .timeShared) :
    p.releaseAll.cores = p.cores.map Core.reset := by
  have hshare : TimeShared.share p.cores p.ledger.clear = (∅, p.cores.map Core.reset) := rfl
  rw [releaseAll, withLedger, reshare, hd]
  dsimp only
  rw [hshare]

/-! ## History -/

/-- Two runs from one fresh processor that end with the same requests, the same flags and the same
failed cores end with the same allocations and the same cores. A request that is made again changes
nothing, and releasing everything leaves every working core free and nothing allocated. -/
theorem shares_independent_of_history {capacities : List α} {overhead : α}
    {ops : List (Operation α)} (fraction : checkFraction .migrationOverhead overhead = .ok overhead)
    (hp : (new (capacities.map .new) .timeShared overhead).performAll ops = .ok p) :
    (∀ (ops' : List (Operation α)) (q : Processor α),
      (new (capacities.map .new) .timeShared overhead).performAll ops' = .ok q →
      p.ledger.requests = q.ledger.requests → p.ledger.arriving = q.ledger.arriving →
      p.ledger.leaving = q.ledger.leaving →
      (∀ (i : Nat) (c c' : Core α), p.cores[i]? = some c → q.cores[i]? = some c' →
        (c.status = .failed ↔ c'.status = .failed)) →
      p.allocations = q.allocations ∧ p.cores = q.cores)
    ∧ (∀ (vm : Vm α) (requested : List α) (q : Processor α),
      p.perform (.request vm requested) = .ok q → q.perform (.request vm requested) = .ok q)
    ∧ (∀ id, p.releaseAll.allocations.find? id = none)
    ∧ ∀ c ∈ p.releaseAll.cores,
      c.allocated = 0 ∧ (c.isWorking = true → c.status = .free) := by
  obtain ⟨hreach, hcapacities, hoverhead, hshared⟩ := outcome_of_run (.inl rfl) fraction hp
  have hd := discipline_of_shared hshared
  refine ⟨?_, fun vm requested q hq => perform_request_again hd hq, ?_, ?_⟩
  · intro ops' q hq hrequests harriving hleaving hfailed
    obtain ⟨hreach', hcapacities', hoverhead', hshared'⟩ := outcome_of_run (.inl rfl) fraction hq
    have hledger : p.ledger = q.ledger := by
      cases hl : p.ledger
      cases hl' : q.ledger
      simp_all
    exact eq_of_books hreach hreach' hd (discipline_of_shared hshared') hledger
      (makeup_eq_of_failed (hcapacities.trans hcapacities'.symm) hfailed)
  · intro id
    rw [releaseAll, withLedger, reshare, hd]
    rfl
  · rw [cores_releaseAll hd]
    intro c hc
    obtain ⟨c₀, -, rfl⟩ := List.mem_map.mp hc
    refine ⟨rfl, fun hworking => ?_⟩
    have hworking₀ : c₀.isWorking = true := (congrArg Prod.snd c₀.profile_reset).symm.trans hworking
    show (if c₀.isWorking then CoreStatus.free else .failed) = .free
    rw [hworking₀, if_pos rfl]

end

/-- A run with a detour: a request that is refused, one that is replaced and a machine that comes
and goes. -/
def longWay : List (Operation α) :=
  [.request (.new 1 1 700 10 10 10 (.constant 1)) [300], .markLeaving 2,
    .request (.new 3 2 800 10 10 10 (.constant 1)) [800, 800],
    .request (.new 2 1 900 10 10 10 (.constant 1)) [900], .failCore 1, .release 3,
    .request (.new 4 2 600 10 10 10 (.constant 1)) [600, 600],
    .request (.new 1 1 700 10 10 10 (.constant 1)) [700]]

/-- A run to the same end, with the machines and the failure in another order. -/
def shortWay : List (Operation α) :=
  [.failCore 1, .request (.new 2 1 900 10 10 10 (.constant 1)) [900],
    .request (.new 1 1 700 10 10 10 (.constant 1)) [700], .markLeaving 2]

/-- Either way, the machines end up with the same shares of the core that is left. -/
theorem shares_independent_of_history_sample : ∃ p q : Processor Binary64,
    (new (List.map .new [1000, 2000]) .timeShared 0.1).performAll longWay = .ok p
      ∧ (new (List.map .new [1000, 2000]) .timeShared 0.1).performAll shortWay = .ok q
      ∧ p.ledger.requests.keys = [1, 2] ∧ p.allocations = q.allocations ∧ p.cores = q.cores := by
  have hcheck : (((new (List.map .new [1000, 2000]) .timeShared 0.1 : Processor Binary64).performAll
      longWay).toOption.any fun p => ((new (List.map .new [1000, 2000]) .timeShared 0.1 :
        Processor Binary64).performAll shortWay).toOption.any fun q =>
          p.ledger.requests.keys == [1, 2] && decide (p.ledger.requests = q.ledger.requests)
          && decide (p.ledger.arriving = q.ledger.arriving)
          && decide (p.ledger.leaving = q.ledger.leaving)
          && decide (p.cores.map (fun c => decide (c.status = .failed))
            = q.cores.map (fun c => decide (c.status = .failed)))) = true := by
    decide +kernel
  simp only [Option.any_eq_true, Fault.toOption_eq_some, Bool.and_eq_true, beq_iff_eq,
    decide_eq_true_eq] at hcheck
  obtain ⟨p, hp, q, hq, ⟨⟨⟨hkeys, hrequests⟩, harriving⟩, hleaving⟩, hstatus⟩ := hcheck
  have hfailed : ∀ (i : Nat) (c c' : Core Binary64), p.cores[i]? = some c → q.cores[i]? = some c' →
      (c.status = .failed ↔ c'.status = .failed) := by
    intro i c c' hc hc'
    have hi := congrArg (fun l => l[i]?) hstatus
    simpa [hc, hc'] using hi
  have hsame := (shares_independent_of_history (if_pos (by decide +kernel)) hp).1 shortWay q hq
    hrequests harriving hleaving hfailed
  exact ⟨p, q, hp, hq, hkeys, hsame⟩

end Processor

end Datacenter
