import Mathlib.Data.Nat.Cast.Defs
import Datacenter.Proofs.Binary64.Rounding
import Datacenter.Proofs.Pool.Processing
import Datacenter.Proofs.Processor.Isolation

/-!
# Changes of size that are refused

A refused change of size leaves a pool as it is, with one exception. When the number of cores is
changed, the host is asked first; if it agrees, the processor is asked for the new number of cores,
and it may still refuse (`Pool.TakesBack`). Then the machine is asked for once more, with its old
size. What it is asked for, however, is what it requests by now, and not what it had requested when
the processor was last asked for it.

Under time sharing this makes no difference: a processor that refuses the new size refuses the old
one as well, or the machine has no cores at all. Under space sharing the machine keeps its cores,
and nothing else changes for anybody, but its request on file is brought up to date and its
allocation with it. So nothing at all has changed exactly if the request on file was up to date
already (`Pool.refused_scaling_unchanged_iff`).
-/

namespace Datacenter

variable {α : Type} [Scalar α]

/-! ## Asking again -/

namespace Processor

variable {p : Processor α} {v : Vm α} {time : α}

/-- Asking again for a machine that is served changes nothing exactly if its request on file is the
one of the moment. -/
theorem renew_eq_self_iff [OrderedScalar α] (hp : p.Reachable) (hv : p.Knows v)
    (hserves : p.serves v = true) : p.renew time v = p
      ↔ p.ledger.requests.find? v.id = some ⟨v.request time, v.isMigrating⟩ := by
  rw [renew_of_serves hp hv hserves]
  constructor
  · intro hsame
    rw [← hsame, withLedger_ledger, Ledger.register, IdMap.find?_insert, if_pos rfl]
  · intro hfile
    rw [Ledger.register, IdMap.insert_of_find?_eq_some hfile]
    exact reshare_of_reachable hp

/-- Asking again for a machine leaves all cores where they are, and to the other machines what they
receive. -/
theorem renew_of_dedicated [OrderedScalar α] (hp : p.Reachable) (hv : p.Knows v)
    (hdedicated : p.isDedicated = true) (time : α) :
    (p.renew time v).ledger = p.ledger.register v (v.request time)
      ∧ (p.renew time v).discipline = p.discipline
      ∧ ∀ k, k ≠ v.id → (p.renew time v).allocations.find? k = p.allocations.find? k := by
  obtain ⟨a, ha⟩ := discipline_of_dedicated hdedicated
  have hrenew : p.renew time v = p.withLedger (p.ledger.register v (v.request time)) :=
    renew_of_serves hp hv (by rw [serves, hdedicated, Bool.true_or])
  have hperform : p.perform (.request v (v.request time)) = .ok (p.renew time v) := rfl
  refine ⟨by rw [hrenew, withLedger_ledger], ?_,
    fun k hk => allocations_perform hp ha rfl hperform hk⟩
  -- those who are on file are the same before and after
  have hcontains : ∀ id,
      (p.ledger.register v (v.request time)).contains id = p.ledger.contains id :=
    Ledger.contains_registerAll (List.forall_mem_singleton.mpr hv.contains)
  have hcurrent : p.discipline.restrict p.ledger = p.discipline :=
    (discipline_withLedger p p.ledger).symm.trans (congrArg discipline (reshare_of_reachable hp))
  rw [hrenew, discipline_withLedger]
  simpa only [ha, Discipline.restrict, hcontains] using hcurrent

end Processor

namespace Host

variable {h : Host α} {v : Vm α} {time : α} {delta : Int} {count : Nat}

/-- Under time sharing a host grants what it has agreed to, unless the processor does not have
enough cores for the present size either. -/
theorem not_serves_or_no_cores (hshared : h.processor.isDedicated = false)
    (hcount : Pool.scaledCores? h v delta = some count)
    (hrefused :
      h.admit? { v with vcpus := count } (Vm.request { v with vcpus := count } time) = none) :
    ¬ h.processor.serves v = true ∨ v.vcpus = 0 := by
  have hfew : h.processor.workingCount < count := by
    have hlength : (Vm.request { v with vcpus := count } time).length = count :=
      List.length_replicate
    rw [admit?, Option.map_eq_none_iff, Processor.admit?, Option.map_eq_none_iff,
      Processor.admission?, Processor.discipline_of_shared hshared] at hrefused
    simpa [TimeShared.admits, hlength, Processor.workingCount] using hrefused
  unfold Pool.scaledCores? at hcount
  dsimp only at hcount
  split at hcount
  · split at hcount
    · contradiction
    · rename_i hprobe
      simp only [Bool.or_eq_true, decide_eq_true_eq, not_or] at hprobe
      cases hcount
      exact absurd hfew hprobe.1
  · cases hcount
    -- one core is left at least, so a machine with cores had no fewer before
    rw [Processor.serves, hshared, Bool.false_or, decide_eq_true_eq]
    omega

end Host

/-! ## Changes that are taken back -/

namespace Pool

variable {p q : Pool α} {vm host : Nat} {resource : Resource} {delta : Int} {v : Vm α} {h : Host α}

/-- A host agrees to a new number of cores, but its processor refuses it. -/
structure TakesBack (p : Pool α) (vm : Nat) (resource : Resource) (delta : Int) (v : Vm α)
    (host : Nat) (h : Host α) : Prop where
  machine : p.vms.find? vm = some v
  placed : v.host = some host
  settled : v.migration = .settled
  resides : p.hosts[host]? = some h
  cores : resource = .cores
  changes : delta ≠ 0
  refused : ∃ count, scaledCores? h v delta = some count
    ∧ h.admit? { v with vcpus := count } (Vm.request { v with vcpus := count } p.time) = none

/-- The pool in which a host has been asked again for a machine. -/
def askAgain (p : Pool α) (host : Nat) (h : Host α) (v : Vm α) : Pool α :=
  { p with hosts := p.hosts.set host { h with processor := h.processor.renew p.time v } }

theorem scale_of_takesBack (hback : p.TakesBack vm resource delta v host h) :
    p.scale vm resource delta = .ok (false, p.askAgain host h v) := by
  obtain ⟨hv, hhost, hsettled, hh, rfl, hdelta, count, hcount, hrefused⟩ := hback
  rw [scale_of_settled hv hhost hsettled hh hdelta]
  simp only [scaleCores, hcount, hrefused, Host.update_eq_renew, askAgain]

/-- A refusal leaves the pool as it is, or it is one that is taken back. -/
theorem refused_scaling (hq : p.scale vm resource delta = .ok (false, q)) :
    q = p ∨ ∃ v host h, p.TakesBack vm resource delta v host h := by
  unfold scale at hq
  split at hq
  case h_2 => exact .inl (of_refusal hq).2
  rename_i v hv
  split at hq
  case h_2 => exact .inl (of_refusal hq).2
  rename_i host hhost
  split at hq
  case isTrue => exact .inl (of_refusal hq).2
  rename_i hfree
  have hsettled : v.migration = .settled := by simpa [Vm.isMigrating] using hfree
  split at hq
  case isTrue => cases hq
  rename_i hdelta
  obtain ⟨h, hh, hq⟩ := Fault.bind_eq_ok.mp hq
  have hh := Fault.elementAt_eq_ok.mp hh
  cases resource with
  | cores =>
    simp only [scaleCores] at hq
    split at hq
    case h_1 => exact .inl (of_refusal hq).2
    rename_i count hcount
    split at hq
    · cases hq
    · rename_i hrefused
      exact .inr ⟨v, host, h, hv, hhost, hsettled, hh, rfl, hdelta, count, hcount, hrefused⟩
  | ram =>
    obtain ⟨ram?, -, hq⟩ := Fault.bind_eq_ok.mp hq
    split at hq
    · cases hq
    · exact .inl (of_refusal hq).2
  | bandwidth =>
    obtain ⟨bandwidth?, -, hq⟩ := Fault.bind_eq_ok.mp hq
    split at hq
    · cases hq
    · exact .inl (of_refusal hq).2

variable [OrderedScalar α]

namespace TakesBack

variable (hp : p.Reachable) (hback : p.TakesBack vm resource delta v host h)

include hp hback

omit [OrderedScalar α] in
theorem id : v.id = vm :=
  ((bookkeeping_of_reachable hp).registered vm).id v hback.machine

omit [OrderedScalar α] in
theorem knows : h.processor.Knows v := by
  refine knows_of_mem_hostsOf hp hback.resides ?_ (by simp [hostsOf, hback.placed])
  rw [hback.id hp]
  exact hback.machine

omit [OrderedScalar α] in
/-- A settled machine is not on file as a migrating one, so its request is all there is to
compare. -/
theorem requestOn?_eq_iff (hknows : h.processor.Knows v) :
    p.requestOn? host vm = some (v.request p.time)
      ↔ h.processor.ledger.requests.find? v.id = some ⟨v.request p.time, v.isMigrating⟩ := by
  have hb := bookkeeping_of_reachable hp
  obtain ⟨r, hr, -⟩ := hknows
  have hflag : r.inMigration = v.isMigrating := by
    have hnone : p.migrations.find? vm = none := (hb.settled_iff hback.machine).mp hback.settled
    have hflagged := (hb.agrees host h hback.resides vm).flagged r (hback.id hp ▸ hr)
    rw [hnone, Option.isSome_none] at hflagged
    rw [Vm.isMigrating, hback.settled, bne_self_eq_false]
    exact Bool.eq_false_iff.mpr fun hmigrating => Bool.false_ne_true (hflagged hmigrating)
  rw [requestOn?, hback.resides, Option.map_some, Ledger.requestOf, ← hback.id hp, hr, ← hflag]
  simp only [Option.map_some, Option.getD_some, Option.some.injEq]
  exact ⟨fun hshare => by rw [← hshare], fun hrequest => by rw [hrequest]⟩

omit [OrderedScalar α] hp in
/-- Asking again changes nothing exactly if the processor does not change. -/
theorem askAgain_eq_self_iff :
    p.askAgain host h v = p ↔ h.processor.renew p.time v = h.processor := by
  constructor
  · intro hsame
    have hget :=
      getElem?_setHost hback.resides { h with processor := h.processor.renew p.time v } host
    rw [if_pos rfl] at hget
    have hhosts : (p.askAgain host h v).hosts[host]? = some h := by rw [hsame, hback.resides]
    exact congrArg Host.processor (Option.some.inj (hget.symm.trans hhosts))
  · intro hsame
    have hset : p.hosts.set host h = p.hosts := by
      obtain ⟨hlt, rfl⟩ := List.getElem?_eq_some_iff.mp hback.resides
      exact List.set_getElem_self hlt
    simp only [askAgain, hsame, hset]

theorem askAgain_of_shared (hshared : h.processor.isDedicated = false) :
    p.askAgain host h v = p := by
  have hreach := processor_of_reachable hp hback.resides
  have hknows := hback.knows hp
  rw [hback.askAgain_eq_self_iff]
  obtain ⟨count, hcount, hrefused⟩ := hback.refused
  rcases Host.not_serves_or_no_cores hshared hcount hrefused with hserves | hnone
  · exact Processor.renew_of_not_serves hreach hknows hserves
  · by_cases hserves : h.processor.serves v = true
    · rw [Processor.renew_eq_self_iff hreach hknows hserves, ← hback.requestOn?_eq_iff hp hknows,
        requestOn?, hback.resides, Option.map_some, Ledger.requestOf, ← hback.id hp]
      obtain ⟨r, hr, hlength⟩ := hknows
      rw [hnone, List.length_eq_zero_iff] at hlength
      rw [hr, Vm.request, hnone, List.replicate_zero, Option.map_some, Option.getD_some, hlength]
    · exact Processor.renew_of_not_serves hreach hknows hserves

end TakesBack

/-- The exception: of the pool, one host has changed, and of that host, the processor. It has the
request of the moment on file, all cores belong to the machines they belonged to, and the other
machines receive what they received. -/
structure RenewsRequest (p q : Pool α) (host : Nat) (h : Host α) (v : Vm α) : Prop where
  rest : q = { p with hosts := p.hosts.set host { h with processor := h.processor.renew p.time v } }
  file : (h.processor.renew p.time v).ledger = h.processor.ledger.register v (v.request p.time)
  cores : (h.processor.renew p.time v).discipline = h.processor.discipline
  others : ∀ k, k ≠ v.id →
    (h.processor.renew p.time v).allocations.find? k = h.processor.allocations.find? k

/-- A refused change of size changes nothing, unless a dedicated processor refuses what its host has
agreed to. Then the request of the machine is renewed and nothing else, so nothing has changed
exactly if the request on file was the one of the moment already. -/
theorem refused_scaling_unchanged_iff (hp : p.Reachable)
    (hq : p.scale vm resource delta = .ok (false, q)) :
    (q = p ↔ ∀ v host h, p.TakesBack vm resource delta v host h → h.processor.isDedicated = true →
        p.requestOn? host vm = some (v.request p.time))
      ∧ ∀ v host h, p.TakesBack vm resource delta v host h → h.processor.isDedicated = true →
        p.RenewsRequest q host h v := by
  -- a change that is taken back determines the result
  have hresult : ∀ {v host h}, p.TakesBack vm resource delta v host h →
      q = p.askAgain host h v := by
    intro v host h hback
    exact congrArg Prod.snd (Except.ok.inj (hq.symm.trans (scale_of_takesBack hback)))
  have hcurrent : ∀ {v host h}, p.TakesBack vm resource delta v host h →
      h.processor.isDedicated = true →
      (q = p ↔ p.requestOn? host vm = some (v.request p.time)) := by
    intro v host h hback hdedicated
    have hknows := hback.knows hp
    rw [hresult hback, hback.askAgain_eq_self_iff, hback.requestOn?_eq_iff hp hknows]
    exact Processor.renew_eq_self_iff (processor_of_reachable hp hback.resides) hknows
      (by rw [Processor.serves, hdedicated, Bool.true_or])
  refine ⟨⟨fun hsame v host h hback hdedicated => (hcurrent hback hdedicated).mp hsame,
    fun hall => ?_⟩, fun v host h hback hdedicated => ?_⟩
  · rcases refused_scaling hq with hsame | ⟨v, host, h, hback⟩
    · exact hsame
    · cases hdedicated : h.processor.isDedicated with
      | false => exact (hresult hback).trans (hback.askAgain_of_shared hp hdedicated)
      | true => exact (hcurrent hback hdedicated).mpr (hall v host h hback hdedicated)
  · obtain ⟨hfile, hcores, hothers⟩ := Processor.renew_of_dedicated
      (processor_of_reachable hp hback.resides) (hback.knows hp) hdedicated p.time
    exact ⟨hresult hback, hfile, hcores, hothers⟩

omit [OrderedScalar α] in
/-- Two machines that have a dedicated core each, of which the first one will ask for less. -/
def takenRun : List (Operation α) :=
  [.addHost (.new "a" (.new (List.map .new [1000, 1000]) (.spaceShared ∅) 0) 100 100 100),
    .addVm (.new 1 1 1000 10 10 10 (.trace [(0, 1), (10, 0.5)])), .addVm (sampleVm 2 1000),
    .create 1 0, .create 2 0]

omit [OrderedScalar α] in
theorem isAdmissible_of_mem_takenRun
    (hzero : (Scalar.isFinite (0 : α) && 0 ≤ (0 : α) && (0 : α) ≤ 1) = true) (time : α) :
    ∀ op ∈ takenRun ++ [.setTime time], op.IsAdmissible := by
  simp only [takenRun, List.cons_append, List.nil_append, List.forall_mem_cons,
    Operation.IsAdmissible]
  exact ⟨isFresh_of_capacities hzero "a" [1000, 1000] (.inr rfl), Vm.isWaiting_new ..,
    Vm.isWaiting_new .., trivial, trivial, trivial, List.forall_mem_nil _⟩

/-- As long as the machine asks for what it has asked for, a core that is refused it leaves no
trace. -/
theorem refused_scaling_unchanged_iff_sample : ∃ (p : Pool Binary64) (v : Vm Binary64)
    (h : Host Binary64), (Pool.new 0 5).performAll (takenRun ++ [.setTime 5]) = .ok p
      ∧ p.TakesBack 1 .cores 1 v 0 h ∧ p.scale 1 .cores 1 = .ok (false, p) := by
  obtain ⟨p, hrun, hp, hcheck⟩ := exists_of_run (fun p : Pool Binary64 =>
    (p.vms.find? 1).any fun v : Vm Binary64 => decide (v.host = some 0)
      && decide (v.migration = .settled) && decide (p.requestOn? 0 1 = some (v.request p.time))
      && p.hosts[0]?.any fun h : Host Binary64 => decide (scaledCores? h v 1 = some 2)
        && (h.admit? { v with vcpus := 2 } (Vm.request { v with vcpus := 2 } p.time)).isNone)
    (isAdmissible_of_mem_takenRun (by decide +kernel) 5) (by decide +kernel)
  simp only [Option.any_eq_true, Bool.and_eq_true, decide_eq_true_eq,
    Option.isNone_iff_eq_none] at hcheck
  obtain ⟨v, hv, ⟨⟨hhost, hsettled⟩, hrequest⟩, h, hh, hcount, hrefused⟩ := hcheck
  have hback : p.TakesBack 1 .cores 1 v 0 h :=
    ⟨hv, hhost, hsettled, hh, rfl, one_ne_zero, 2, hcount, hrefused⟩
  have hsame := (refused_scaling_unchanged_iff hp (scale_of_takesBack hback)).1.mpr
    fun v' host h' hback' _ => by
      obtain rfl := Option.some.inj (hv.symm.trans hback'.machine)
      obtain rfl := Option.some.inj (hhost.symm.trans hback'.placed)
      exact hrequest
  refine ⟨p, v, h, hrun, hback, ?_⟩
  rw [scale_of_takesBack hback, hsame]

/-- A machine that asks for less by now is refused a core. From then on it receives less. -/
theorem exists_changed_by_refusal : ∃ (p q : Pool Binary64) (h h' : Host Binary64), p.Reachable
    ∧ (Pool.new 0 5).performAll (takenRun ++ [.setTime 10]) = .ok p
    ∧ p.scale 1 .cores 1 = .ok (false, q) ∧ p.hosts[0]? = some h ∧ q.hosts[0]? = some h'
    ∧ h.processor.ledger.requestOf 1 = [1000] ∧ h'.processor.ledger.requestOf 1 = [500]
    ∧ h.processor.allocatedTo 1 = [1000] ∧ h'.processor.allocatedTo 1 = [500] ∧ ¬ q = p := by
  obtain ⟨p, hrun, hp, hcheck⟩ := exists_of_run (fun p : Pool Binary64 =>
    (p.scale 1 .cores 1).toOption.any fun r => !r.1
      && p.hosts[0]?.any fun h : Host Binary64 =>
        decide (h.processor.ledger.requestOf 1 = [1000])
          && decide (h.processor.allocatedTo 1 = [1000])
          && r.2.hosts[0]?.any fun h' : Host Binary64 =>
            decide (h'.processor.ledger.requestOf 1 = [500])
              && decide (h'.processor.allocatedTo 1 = [500]))
    (isAdmissible_of_mem_takenRun (by decide +kernel) 10) (by decide +kernel)
  simp only [Option.any_eq_true, Bool.and_eq_true, decide_eq_true_eq, Bool.not_eq_true',
    Fault.toOption_eq_some] at hcheck
  obtain ⟨⟨b, q⟩, hq, rfl, h, hh, ⟨hasked, hreceived⟩, h', hh', hasked', hreceived'⟩ := hcheck
  refine ⟨p, q, h, h', hp, hrun, hq, hh, hh', hasked, hasked', hreceived, hreceived', ?_⟩
  rintro rfl
  obtain rfl := Option.some.inj (hh.symm.trans hh')
  exact absurd (hreceived.symm.trans hreceived') (by decide +kernel)

end Pool

end Datacenter
