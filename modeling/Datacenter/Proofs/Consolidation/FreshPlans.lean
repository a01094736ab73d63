import Mathlib.Data.Nat.Cast.Defs
import Datacenter.Proofs.Binary64.Rounding
import Datacenter.Proofs.Consolidation.Turns
import Datacenter.Proofs.Pool.Evolution

/-!
# What a fresh plan can rely on

When it is the turn of a move of a fresh plan, the machine is where the plan has found it, and the
target has cores, memory, bandwidth and storage for it; if the machine is turned away then for its
speed (`fresh_plan_fits`). The selector of the plan has to keep to what it is offered, for it could
name a machine that waits for a place, or one that is planned to come to the host it is on.

On a target where every virtual core has a core of its own the plan has counted free cores, and it
knows the speed of the fastest core only. So all machines are admitted for which every free core is
fast enough (`fresh_plan_dedicates`), but one that needs the fastest core may find it taken
(`exists_refused_dedicated`).
-/

namespace Datacenter.Consolidation

variable {α : Type} [Scalar α]

/-! ## Whole-unit resources -/

section

variable {σ : Type} {rule : Rule α} {choose : Selector σ α} {s s' : σ} {p : Pool α}
  {eligible : List Nat} {plan : MigrationPlan} {before after : List (Nat × Nat)} {k t : Nat}

/-- When it is the turn of a move of a fresh plan, the machine is settled on another host, and what
its target can lack is speed only. -/
theorem fresh_plan_fits [LawfulScalar α] (hp : p.Reachable) (hrange : ∀ h ∈ p.hosts, h.InRange)
    (hspeed : ∀ v ∈ p.vms.values, 0 ≤ v.speed)
    (hchoose : Selector.IsSound choose) (hplan : Plans rule choose s p eligible plan s')
    (hmoves : plan.moves = before ++ (k, t) :: after) :
    ∃ count kept q v source h verdict, Pool.startAll before p = .ok (count, kept, q)
      ∧ q.vms.find? k = some v ∧ v.host = some source ∧ v.migration = .settled
      ∧ q.migrations.find? k = none ∧ q.hosts[t]? = some h ∧ source ≠ t
      ∧ h.check v = .ok verdict ∧ (verdict = .success ∨ verdict = .notEnoughSpeed)
      ∧ ∃ r, q.startMigration k t = .ok (decide (verdict = .success), r) := by
  have hplan := (plans_iff (Pool.bookkeeping_of_reachable hp) hchoose).mp hplan
  obtain ⟨count, kept, q, earlier, v, h₀, h, vs, e, rfl, hq, hturn, hfind, -⟩ :=
    exists_turn hp hrange hspeed hplan hmoves
  obtain ⟨source, hsource, hne⟩ := hturn.source
  have hin : h₀.InRange := hrange h₀ (List.mem_of_getElem? hturn.before)
  have hpos : 0 ≤ v.speed := hspeed v (IdMap.mem_values_iff.mpr ⟨v.id, hfind⟩)
  obtain ⟨r, hr⟩ := hturn.exists_start hin hpos
  refine ⟨count, kept, q, v, source, h, _, hq, hturn.found, hsource, hturn.settled.1,
    hturn.settled.2, hturn.now, hne, hturn.check hin, ?_, r, ?_⟩
  · split
    · exact .inl rfl
    · exact .inr rfl
  · rw [hr]
    cases h.processor.isSuitable v <;> rfl

/-- The second move of the sample has its turn when the first one has been made. -/
theorem fresh_plan_fits_sample : ∃ (p : Pool Binary64) (plan : MigrationPlan),
    p.Reachable ∧ plan.moves = [(10, 1), (14, 1)]
      ∧ ∃ count kept q v source h verdict, Pool.startAll [(10, 1)] p = .ok (count, kept, q)
        ∧ q.vms.find? 14 = some v ∧ v.host = some source ∧ v.migration = .settled
        ∧ q.migrations.find? 14 = none ∧ q.hosts[1]? = some h ∧ source ≠ 1
        ∧ h.check v = .ok verdict ∧ (verdict = .success ∨ verdict = .notEnoughSpeed)
        ∧ ∃ r, q.startMigration 14 1 = .ok (decide (verdict = .success), r) := by
  obtain ⟨p, plan, next, hp, hplan, hcheck⟩ := exists_samplePlan
    (fun r : Pool Binary64 × MigrationPlan × SelectionPolicy =>
      r.2.1.moves == [(10, 1), (14, 1)] && decide (∀ h ∈ r.1.hosts, h.InRange)
        && decide (∀ v ∈ r.1.vms.values, 0 ≤ v.speed))
    (by decide +kernel) (by decide +kernel)
  simp only [Bool.and_eq_true, beq_iff_eq, decide_eq_true_eq] at hcheck
  obtain ⟨⟨hmoves, hrange⟩, hspeed⟩ := hcheck
  have hsplit : plan.moves = [(10, 1)] ++ (14, 1) :: [] := hmoves
  exact ⟨p, plan, hp, hmoves, fresh_plan_fits hp hrange hspeed SelectionPolicy.isSound_select
    (plans_of_policy hp hplan) hsplit⟩

end

/-! ## Cores of their own -/

section

variable {σ : Type} {rule : Rule α} {choose : Selector σ α} {s s' : σ} {p : Pool α}
  {eligible : List Nat} {plan : MigrationPlan} {before after : List (Nat × Nat)} {k t : Nat}
  {v : Vm α} {h₀ : Host α}

/-- A machine that is planned to come to a host where every virtual core has a core of its own finds
them, if all cores that were free when the plan was made are fast enough for it. -/
theorem fresh_plan_dedicates [LawfulScalar α] (hp : p.Reachable)
    (hrange : ∀ h ∈ p.hosts, h.InRange) (hspeed : ∀ v ∈ p.vms.values, 0 ≤ v.speed)
    (hchoose : Selector.IsSound choose) (hplan : Plans rule choose s p eligible plan s')
    (hmoves : plan.moves = before ++ (k, t) :: after)
    (hv : p.vms.find? k = some v) (hh : p.hosts[t]? = some h₀)
    (hdedicated : h₀.processor.isDedicated = true)
    (hfast : ∀ c ∈ h₀.processor.cores, c.isFree = true → v.speed ≤ c.capacity) :
    ∃ count kept q h r, Pool.startAll before p = .ok (count, kept, q) ∧ q.hosts[t]? = some h
      ∧ h.check v = .ok .success ∧ q.startMigration k t = .ok (true, r) := by
  have hplan := (plans_iff (Pool.bookkeeping_of_reachable hp) hchoose).mp hplan
  obtain ⟨count, kept, q, earlier, v', h₁, h, vs, e, rfl, hq, hturn, hfind, -⟩ :=
    exists_turn hp hrange hspeed hplan hmoves
  obtain rfl := Option.some.inj (hv.symm.trans hfind)
  obtain rfl := Option.some.inj (hh.symm.trans hturn.before)
  have hin : h₀.InRange := hrange h₀ (List.mem_of_getElem? hh)
  have hroom : (vs.map (·.vcpus)).sum + v.vcpus ≤ h₀.processor.freeCount := by
    have hcounted := hturn.holds.free (hturn.measures.isDedicated.trans hdedicated)
    have hcame : (vs.map (·.vcpus)).sum ≤ ((arrivals earlier t).map (·.vcpus)).sum :=
      (hturn.arrived.map _).sum_le_sum fun _ _ => Nat.zero_le _
    rw [hturn.measures.free, List.map_append, List.sum_append_nat, List.map_singleton,
      List.sum_singleton] at hcounted
    omega
  have hsuitable := hturn.received.isSuitable_of_isDedicated (Pool.processor_of_reachable hp hh)
    hdedicated hfast hroom
  obtain ⟨hcheck, r, hr⟩ := hturn.exists_granted hin
    (hspeed v (IdMap.mem_values_iff.mpr ⟨v.id, hv⟩)) hsuitable
  exact ⟨count, kept, q, h, r, hq, hturn.now, hcheck, hr⟩

end

/-- A run after which a machine overloads the first host, and a slower one holds the faster one of
two cores of the second host. -/
def dedicatedRun (slower : α) : List (Operation α) :=
  [.addHost (.new "a" (.new (List.map .new [2000]) .timeShared 0) 100 100 100),
    .addHost (.new "b" (.new (List.map .new [3000, slower]) (.spaceShared ∅) 0) 100 100 100),
    .addVm (Pool.sampleVm 1 2000), .addVm (Pool.sampleVm 2 1000), .create 1 0, .create 2 1]

/-- What the plan for the pool after such a run passes a check for can be relied on. -/
theorem exists_dedicatedPlan (slower : α) (check : Pool α × MigrationPlan → Bool)
    (hzero : (Scalar.isFinite (0 : α) && 0 ≤ (0 : α) && (0 : α) ≤ 1) = true)
    (hcheck : (((Pool.new 0 5).performAll (dedicatedRun slower)).toOption.any fun p =>
      (Consolidation.plan sampleRule SelectionPolicy.select .minimumUtilization p
        [1, 2]).toOption.any fun r => check (p, r.1)) = true) :
    ∃ (p : Pool α) (plan : MigrationPlan) (next : SelectionPolicy), p.Reachable
      ∧ Consolidation.plan sampleRule SelectionPolicy.select .minimumUtilization p [1, 2]
        = .ok (plan, next)
      ∧ check (p, plan) = true := by
  have hops : ∀ op ∈ dedicatedRun slower, op.IsAdmissible := by
    simp only [dedicatedRun, List.forall_mem_cons, Operation.IsAdmissible]
    exact ⟨Pool.isFresh_of_capacities hzero "a" [2000] (.inl rfl),
      Pool.isFresh_of_capacities hzero "b" [3000, slower] (.inr rfl),
      Vm.isWaiting_new .., Vm.isWaiting_new .., trivial, trivial, List.forall_mem_nil _⟩
  obtain ⟨p, -, hp, hcheck⟩ := Pool.exists_of_run _ hops hcheck
  obtain ⟨⟨plan, next⟩, hplan, hcheck⟩ := Option.any_eq_true _ _ |>.mp hcheck
  exact ⟨p, plan, next, hp, Fault.toOption_eq_some.mp hplan, hcheck⟩

/-- Where the free core is as fast as the machine, the move is made. -/
theorem fresh_plan_dedicates_sample : ∃ (p : Pool Binary64) (plan : MigrationPlan),
    p.Reachable ∧ plan.moves = [(1, 1)] ∧ (∃ h₀, p.hosts[1]? = some h₀
      ∧ h₀.processor.isDedicated = true)
      ∧ ∃ count kept q h r, Pool.startAll [] p = .ok (count, kept, q) ∧ q.hosts[1]? = some h
        ∧ (∃ v, p.vms.find? 1 = some v ∧ h.check v = .ok .success)
        ∧ q.startMigration 1 1 = .ok (true, r) := by
  obtain ⟨p, plan, next, hp, hplan, hcheck⟩ := exists_dedicatedPlan (2000 : Binary64)
    (fun r : Pool Binary64 × MigrationPlan => r.2.moves == [(1, 1)]
      && decide (∀ h ∈ r.1.hosts, h.InRange)
      && decide (∀ v ∈ r.1.vms.values, 0 ≤ v.speed)
      && (r.1.vms.find? 1).any fun v : Vm Binary64 => r.1.hosts[1]?.any fun h : Host Binary64 =>
        h.processor.isDedicated
        && decide (∀ c ∈ h.processor.cores, c.isFree = true → v.speed ≤ c.capacity))
    (by decide +kernel) (by decide +kernel)
  simp only [Bool.and_eq_true, beq_iff_eq, decide_eq_true_eq, Option.any_eq_true] at hcheck
  obtain ⟨⟨⟨hmoves, hrange⟩, hspeed⟩, v, hv, h₀, hh, hdedicated, hfast⟩ := hcheck
  have hsplit : plan.moves = [] ++ (1, 1) :: [] := hmoves
  obtain ⟨count, kept, q, h, r, hq, hh', hcheck, hr⟩ :=
    fresh_plan_dedicates hp hrange hspeed SelectionPolicy.isSound_select (plans_of_policy hp hplan)
      hsplit hv hh hdedicated hfast
  exact ⟨p, plan, hp, hmoves, ⟨h₀, hh, hdedicated⟩, count, kept, q, h, r, hq, hh', ⟨v, hv, hcheck⟩,
    hr⟩

/-- Where the free core is slower than the machine the move is planned all the same, since the core
that is taken is fast enough, and then the machine is refused. -/
theorem exists_refused_dedicated : ∃ (p : Pool Binary64) (plan : MigrationPlan)
    (next : SelectionPolicy) (h : Host Binary64) (v : Vm Binary64), p.Reachable
      ∧ (∀ h ∈ p.hosts, h.InRange ∧ ∀ c ∈ h.processor.cores, 0 ≤ c.capacity)
      ∧ (∀ v ∈ p.vms.values, 0 ≤ v.speed)
      ∧ Consolidation.plan sampleRule SelectionPolicy.select .minimumUtilization p [1, 2]
        = .ok (plan, next)
      ∧ plan.moves = [(1, 1)] ∧ p.hosts[1]? = some h ∧ h.processor.isDedicated = true
      ∧ p.vms.find? 1 = some v ∧ h.check v = .ok .notEnoughSpeed
      ∧ (p.execute plan).map Prod.fst = .ok 0 := by
  obtain ⟨p, plan, next, hp, hplan, hcheck⟩ := exists_dedicatedPlan (1000 : Binary64)
    (fun r : Pool Binary64 × MigrationPlan => r.2.moves == [(1, 1)]
      && decide (∀ h ∈ r.1.hosts, h.InRange ∧ ∀ c ∈ h.processor.cores, 0 ≤ c.capacity)
      && decide (∀ v ∈ r.1.vms.values, 0 ≤ v.speed)
      && ((r.1.execute r.2).map Prod.fst).toOption == some 0
      && (r.1.vms.find? 1).any fun v : Vm Binary64 => r.1.hosts[1]?.any fun h : Host Binary64 =>
        h.processor.isDedicated
        && (h.check v).toOption == some .notEnoughSpeed)
    (by decide +kernel) (by decide +kernel)
  simp only [Bool.and_eq_true, beq_iff_eq, decide_eq_true_eq, Option.any_eq_true,
    Fault.toOption_eq_some] at hcheck
  obtain ⟨⟨⟨⟨hmoves, hsized⟩, hspeed⟩, hcount⟩, v, hv, h, hh, hdedicated, hverdict⟩ := hcheck
  exact ⟨p, plan, next, h, v, hp, hsized, hspeed, hplan, hmoves, hh, hdedicated, hv, hverdict,
    hcount⟩

end Datacenter.Consolidation
