import Mathlib.Data.Nat.Cast.Defs
import Datacenter.Proofs.Consolidation.Soundness
import Datacenter.Proofs.Pool.Vacating

/-!
# Switching evacuated hosts off

What becomes of the hosts that a fresh plan switches off, whatever the selector has answered. A host
all of whose machines have started on their ways is on until the last one has left and off from then
on, whatever else departs in between and in whatever order; a host that some machine has been
refused to leave stays on (`evacuated_off_once_vacated`).

A plan sends no machine to a host that it evacuates, and none is on its way there, so the theory of
hosts that are left by their machines applies (`Datacenter/Proofs/Pool/Vacating.lean`).
-/

namespace Datacenter.Consolidation

variable {α σ : Type} [Scalar α] {rule : Rule α} {choose : Selector σ α} {s s' : σ} {p q : Pool α}
  {eligible : List Nat} {plan : MigrationPlan} {count i : Nat}

omit [Scalar α] in
/-- No machine is on its way to a host without migrations. -/
theorem incoming_of_quiet {h : Host α} (hquiet : h.hasMigrations = false) :
    h.incoming.isEmpty = true := by
  rw [Host.hasMigrations, Bool.or_eq_false_iff, Bool.not_eq_false'] at hquiet
  exact hquiet.1

/-- When a fresh plan has been executed, a host to be switched off of which every machine has
started is on and waits as long as a machine resides on it, and is off and waits no longer from then
on. A host of which a machine has been refused is on and has not been made to wait. -/
theorem evacuated_off_once_vacated (hp : p.Reachable)
    (hplan : Plans rule choose s p eligible plan s')
    (hq : p.execute plan = .ok (count, q)) (hi : plan.switchOff.contains i = true) :
    ((∀ m b, p.Answers plan.moves m b → p.location? m.1 = some i → b = true) →
      ∀ ops : List (Operation α), (∀ op ∈ ops, op.IsDeparture) →
        ∃ r, q.performAll ops = .ok r ∧ r.OffOnceVacated i)
    ∧ ((∃ m, p.Answers plan.moves m false ∧ p.location? m.1 = some i) →
      ∃ h, q.hosts[i]? = some h ∧ h.isActive = true
        ∧ q.pendingOff.contains i = p.pendingOff.contains i) := by
  have hbook := Pool.bookkeeping_of_reachable hp
  obtain ⟨start, chosen, es, rs, ns, hstart, -, hdrafted⟩ := plans_outcome hbook hplan
  obtain ⟨h, hh, hevacuated⟩ := hdrafted.isEvacuated hbook hstart hi
  constructor
  · intro hstarted ops hops
    have hoff : q.OffOnceVacated i := Pool.offOnceVacated_execute hq hi hevacuated.avoided hh
      (incoming_of_quiet hevacuated.quiet) hevacuated.active hstarted
    have hperform : p.perform (.execute plan) = .ok q := Fault.map_eq_ok.mpr ⟨_, hq, rfl⟩
    have hreachable : q.Reachable := by
      refine hp.perform ?_ hperform
      exact trivial
    exact hoff.performAll (Pool.bookkeeping_of_reachable hreachable) hops
  · intro hrefused
    have haside := Pool.leavesAside_execute hq hevacuated.avoided hrefused
    obtain ⟨h', hh', -, -, hon⟩ := haside.host h hh
    exact ⟨h', hh', hon.trans hevacuated.active, haside.pending⟩

/-- A run after which the first host is to be evacuated to the second one, where the fast core is
taken. -/
def refusingRun : List (Operation α) :=
  [.addHost (.new "a" (.new (List.map .new [10000]) .timeShared 0) 100 100 100),
    .addHost (.new "b" (.new (List.map .new [3000, 1000]) (.spaceShared ∅) 0) 100 100 100),
    .addVm (Pool.sampleVm 1 2000), .addVm (Pool.sampleVm 2 1000), .create 1 0, .create 2 1]

/-- The lightly loaded host of the sample waits until its machine has moved, and a host whose
machine is refused elsewhere stays on. -/
theorem evacuated_off_once_vacated_sample :
    (∃ (p q r : Pool Binary64) (plan : MigrationPlan) (count : Nat) (h h' : Host Binary64),
      p.Reachable ∧ plan.switchOff.keys = [3] ∧ p.execute plan = .ok (count, q)
      ∧ q.hosts[3]? = some h ∧ h.isActive = true ∧ q.pendingOff.contains 3 = true
      ∧ q.performAll [.finishMigration 14] = .ok r
      ∧ r.hosts[3]? = some h' ∧ h'.isActive = false ∧ r.pendingOff.contains 3 = false)
    ∧ ∃ (p q : Pool Binary64) (plan : MigrationPlan) (count : Nat) (h : Host Binary64),
      p.Reachable ∧ plan.moves = [(1, 1)] ∧ plan.switchOff.keys = [0]
      ∧ p.execute plan = .ok (count, q) ∧ q.hosts[0]? = some h ∧ h.isActive = true
      ∧ q.pendingOff.contains 0 = false := by
  constructor
  · obtain ⟨p, plan, next, hp, hplan, hcheck⟩ := exists_samplePlan
      (fun r : Pool Binary64 × MigrationPlan × SelectionPolicy => r.2.1.switchOff.keys == [3]
        && (Pool.startAll r.2.1.moves r.1).toOption.any (fun x => !x.2.1.contains 3)
        && (r.1.execute r.2.1).toOption.any fun x =>
          x.2.hosts[3]?.any (fun h => !h.residents.isEmpty)
          && (x.2.performAll [.finishMigration 14]).toOption.any fun r =>
            r.hosts[3]?.any (·.residents.isEmpty))
      (by decide +kernel) (by decide +kernel)
    simp only [Bool.and_eq_true, beq_iff_eq, Option.any_eq_true, Fault.toOption_eq_some,
      Bool.not_eq_true'] at hcheck
    obtain ⟨⟨hkeys, ⟨_, kept, _⟩, hstart, hkept⟩, ⟨count, q⟩, hq, ⟨h₁, hh₁, hfull⟩, r, hr, h₂, hh₂,
      hempty⟩ := hcheck
    have hthree : plan.switchOff.contains 3 = true := by
      rw [← IdMap.mem_keys_iff, hkeys]
      exact List.mem_singleton_self 3
    have hstarted : ∀ m b, p.Answers plan.moves m b → p.location? m.1 = some 3 → b = true := by
      intro m b hm hloc
      rw [← Bool.not_eq_false]
      rintro rfl
      have hthree := (Pool.contains_kept_iff hstart).mpr ⟨m, hm, hloc⟩
      exact Bool.false_ne_true (hkept.symm.trans hthree)
    have hplans := plans_of_policy hp hplan
    have hoff := (evacuated_off_once_vacated hp hplans hq hthree).1 hstarted
    obtain ⟨_, hnow, h, hh, -, -, hon⟩ := hoff [] (List.forall_mem_nil _)
    obtain rfl := Except.ok.inj hnow
    obtain rfl := Option.some.inj (hh₁.symm.trans hh)
    obtain ⟨_, hthen, h', hh', -, hvacated, -⟩ :=
      hoff [.finishMigration 14] (by simp [Operation.IsDeparture])
    obtain rfl := Except.ok.inj (hr.symm.trans hthen)
    obtain rfl := Option.some.inj (hh₂.symm.trans hh')
    exact ⟨p, q, r, plan, count, h₁, h₂, hp, hkeys, hq, hh, (hon hfull).1, (hon hfull).2, hr, hh',
      (hvacated hempty).1, (hvacated hempty).2⟩
  · have hops : ∀ op ∈ (refusingRun : List (Operation Binary64)), op.IsAdmissible := by
      simp only [refusingRun, List.forall_mem_cons, Operation.IsAdmissible]
      exact ⟨Pool.isFresh_of_capacities (by decide +kernel) "a" [10000] (.inl rfl),
        Pool.isFresh_of_capacities (by decide +kernel) "b" [3000, 1000] (.inr rfl),
        Vm.isWaiting_new .., Vm.isWaiting_new .., trivial, trivial, List.forall_mem_nil _⟩
    obtain ⟨p, -, hp, hcheck⟩ := Pool.exists_of_run (fun p : Pool Binary64 =>
      (Consolidation.plan sampleRule SelectionPolicy.select .minimumUtilization p
        [1, 2]).toOption.any fun r => r.1.moves == [(1, 1)] && r.1.switchOff.keys == [0]
        && !p.pendingOff.contains 0 && (p.execute r.1).toOption.isSome
        && (Pool.startAll r.1.moves p).toOption.any (fun x => x.2.1.contains 0)) hops
      (by decide +kernel)
    simp only [Option.any_eq_true, Fault.toOption_eq_some, Bool.and_eq_true, beq_iff_eq,
      Bool.not_eq_true', Option.isSome_iff_exists] at hcheck
    obtain ⟨⟨plan, next⟩, hplan, ⟨⟨⟨hmoves, hkeys⟩, hnot⟩, ⟨count, q⟩, hq⟩, ⟨_, kept, _⟩, hstart,
      hkept⟩ := hcheck
    have hzero : plan.switchOff.contains 0 = true := by
      rw [← IdMap.mem_keys_iff, hkeys]
      exact List.mem_singleton_self 0
    have hplans := plans_of_policy hp hplan
    obtain ⟨h, hh, hon, hpending⟩ := (evacuated_off_once_vacated hp hplans hq hzero).2
      ((Pool.contains_kept_iff hstart).mp hkept)
    exact ⟨p, q, plan, count, h, hp, hmoves, hkeys, hq, hh, hon, hpending.trans hnot⟩

end Datacenter.Consolidation
