import Datacenter.Proofs.Consolidation.Relieving
import Datacenter.Proofs.Pool.Execution

/-!
# Consolidation does not overload hosts

A host that is not overloaded when a round is planned is not overloaded while the plan is executed
and its migrations are finished, whatever the selector answers. Over exact numbers the two sides of
the argument meet in one sum, `Pool.plannedLoad`: the loads of all machines that are planned to come
to a host.

* The planner has seen that sum. It accepts a machine only if the target stays within its threshold
  with the machine and all machines it has accepted before (`planned_within`). If a selector makes a
  machine move twice, the planner has even seen more than the plan moves.
* The execution does not exceed that sum (`Pool.Underway.of_during`).

Hosts that nothing is planned to come to can only lose load.
-/

namespace Datacenter.Consolidation

variable {σ : Type} {rule : Rule ℚ} {choose : Selector σ ℚ} {s s' : σ} {p q : Pool ℚ}
  {eligible : List Nat} {plan : MigrationPlan}

/-! ## What the planner has seen -/

section

variable {time : ℚ} {ms : List (Vm ℚ × Nat)} {es es' : List (Estimate ℚ)}

/-- The load of an estimate grows by the loads of the machines that are settled on the host. -/
theorem Settled.load_eq (h : Settled time ms es es') {i : Nat} {e e' : Estimate ℚ}
    (he : es[i]? = some e) (he' : es'[i]? = some e') :
    e'.load = e.load + ((ms.filter fun m => m.2 = i).map fun m => m.1.loadAt time).sum := by
  induction h generalizing e with
  | nil es =>
    obtain rfl := Option.some.inj (he.symm.trans he')
    simp
  | @cons vm target e₀ ms es es' he₀ _ _ ih =>
    have hnext : (es.modify target (·.add vm (vm.loadAt time)))[i]?
        = some (if target = i then e.add vm (vm.loadAt time) else e) := by
      rw [List.getElem?_modify, he]
      rfl
    by_cases hi : target = i
    · rw [if_pos hi] at hnext
      rw [ih hnext he', List.filter_cons_of_pos (by simpa using hi), List.map_cons, List.sum_cons,
        ← add_assoc]
      rfl
    · rw [if_neg hi] at hnext
      rw [ih hnext he', List.filter_cons_of_neg (by simpa using hi)]

/-- A host on which machines have been settled is within its threshold: it was when the last one
came. -/
theorem Settled.within (h : Settled time ms es es') {i : Nat} (hi : i ∈ ms.map Prod.snd)
    {e' : Estimate ℚ} (he' : es'[i]? = some e') :
    0 < e'.capacity ∧ e'.load / e'.capacity ≤ e'.threshold := by
  induction h with
  | nil es => cases hi
  | @cons vm target e ms es es' he haccept hrest ih =>
    -- either a later machine has come to the host too, or this one was the last
    by_cases hlater : i ∈ ms.map Prod.snd
    · exact ih hlater he'
    · have htarget : i = target := (List.mem_cons.mp hi).resolve_right hlater
      subst htarget
      have hlast : ∀ m ∈ ms, m.2 ≠ i := fun m hm heq => hlater (List.mem_map.mpr ⟨m, hm, heq⟩)
      rw [hrest.getElem?_of_ne hlast, List.getElem?_modify_eq, he] at he'
      cases he'
      simp only [Estimate.canAccept, Bool.and_eq_true, decide_eq_true_eq] at haccept
      exact ⟨haccept.1.2, haccept.2⟩

end

/-- The sum that the planner has seen. -/
theorem plannedLoad_movesOf {ms : List (Vm ℚ × Nat)}
    (hregistered : ∀ m ∈ ms, p.vms.find? m.1.id = some m.1) (i : Nat) :
    p.plannedLoad (movesOf ms) i
      = ((ms.filter fun m => m.2 = i).map fun m => m.1.loadAt p.time).sum := by
  rw [Pool.plannedLoad, movesOf, List.filter_map, List.map_map]
  congr 1
  apply List.map_congr_left
  intro m hm
  show p.loadOf m.1.id = m.1.loadAt p.time
  rw [Pool.loadOf, hregistered m (List.mem_filter.mp hm).1]

/-- Fewer moves bring less load. -/
theorem plannedLoad_le (hspeed : p.NonnegativeSpeeds) {moves moves' : List (Nat × Nat)}
    (hsub : moves.Sublist moves') (i : Nat) : p.plannedLoad moves i ≤ p.plannedLoad moves' i := by
  refine ((hsub.filter _).map _).sum_le_sum fun load hload => ?_
  obtain ⟨m, -, rfl⟩ := List.mem_map.mp hload
  exact Pool.loadOf_nonneg hspeed m.1

/-- A host that machines are planned to come to is within its threshold with all of them. -/
theorem planned_within (hp : p.Bookkeeping) (hspeed : p.NonnegativeSpeeds)
    (hplan : Plans rule choose s p eligible plan s') {i : Nat} {h : Host ℚ}
    (hh : p.hosts[i]? = some h) (hi : i ∈ plan.moves.map Prod.snd) :
    ∃ threshold, rule.upper.of h = .ok threshold ∧ 0 < h.processor.capacity
      ∧ (h.load + p.plannedLoad plan.moves i) / h.processor.capacity ≤ threshold := by
  obtain ⟨start, chosen, es, rs, ns, hstart, hchosen, hdrafted⟩ := plans_outcome hp hplan
  obtain ⟨planned, hsub, hmoves⟩ :=
    MigrationPlan.exists_moves_insertAll .empty (movesOf (rs ++ ns))
  have hsub : plan.moves.Sublist (movesOf (rs ++ ns)) := by
    rw [hdrafted.moves, hmoves]
    exact hsub
  have hi : i ∈ (rs ++ ns).map Prod.snd := by
    rw [← map_snd_movesOf]
    exact (hsub.map Prod.snd).subset hi
  obtain ⟨m, hm, rfl⟩ := List.mem_map.mp hi
  -- the target is not overloaded, so choosing machines has not changed its estimate
  obtain ⟨e₀, he₀⟩ := hdrafted.settled.exists_of_mem hm
  obtain ⟨e', he', hkin⟩ := hdrafted.settled.sameHosts.after he₀
  have hof := isOf_of_getElem? hstart hh
    ((hchosen.elsewhere m.2 (hdrafted.target m hm).1).symm.trans he₀)
  obtain ⟨hcapacity, hload⟩ := hdrafted.settled.within hi he'
  rw [hkin.capacity, hof.capacity] at hcapacity hload
  rw [hkin.threshold, hdrafted.settled.load_eq he₀ he', hof.load,
    ← plannedLoad_movesOf hdrafted.registered] at hload
  refine ⟨e₀.threshold, hof.threshold, hcapacity, le_trans ?_ hload⟩
  have hseen := plannedLoad_le hspeed hsub m.2
  exact div_le_div_of_nonneg_right (by linarith) hcapacity.le

/-! ## Hosts that bear less -/

/-- The threshold of a host depends on its history only. -/
theorem threshold_congr {h h' : Host ℚ} (hhistory : h'.history = h.history)
    (upper : UpperThreshold ℚ) : upper.of h' = upper.of h := by
  induction upper with
  | fixed threshold => rfl
  | adaptive measure safety minHistory fallback ih =>
    rw [UpperThreshold.of, UpperThreshold.of, UpperThreshold.variability?,
      UpperThreshold.variability?, hhistory, ih]

/-- A host without cores of a negative capacity has no negative capacity itself. -/
theorem capacity_nonneg {h : Host ℚ} (hcores : ∀ c ∈ h.processor.cores, 0 ≤ c.capacity) :
    0 ≤ h.processor.capacity := by
  rw [Processor.capacity, TimeShared.capacity, Rational.sum_eq]
  apply List.sum_nonneg
  intro x hx
  obtain ⟨c, hc, rfl⟩ := List.mem_map.mp hx
  exact hcores c (List.mem_filter.mp hc).1

/-- A host that is on is not overloaded exactly if its utilization is within the threshold. -/
theorem isOverloaded_eq_false_iff {h : Host ℚ} {threshold : ℚ}
    (hthreshold : rule.upper.of h = .ok threshold) :
    rule.isOverloaded h = .ok false
      ↔ (h.isActive = true → h.utilization ≤ threshold) := by
  unfold Rule.isOverloaded
  rw [hthreshold]
  cases h.isActive with
  | false => exact ⟨fun _ hon => (nomatch hon), fun _ => rfl⟩
  | true =>
    show Except.ok (decide (threshold < h.utilization)) = .ok false ↔ _
    simp

/-- Less load on the same capacity is less utilization. -/
theorem utilization_le {h h' : Host ℚ} (hbears : h.Bears h' 0)
    (hcapacity : 0 ≤ h.processor.capacity) : h'.utilization ≤ h.utilization := by
  have hload : h'.load ≤ h.load := by simpa using hbears.load
  unfold Host.utilization
  rw [hbears.capacity]
  split
  · exact le_refl _
  · exact div_le_div_of_nonneg_right hload hcapacity

/-- No host becomes overloaded by a round, whatever its selector answers and however far its
execution has got: a host that is not overloaded when the round is planned is not overloaded then,
hosts that were off included. -/
theorem execution_overloads_no_host (hp : p.Reachable) (hspeed : p.NonnegativeSpeeds)
    (hcores : ∀ h ∈ p.hosts, ∀ c ∈ h.processor.cores, 0 ≤ c.capacity)
    (hplan : Plans rule choose s p eligible plan s') (hq : p.During plan q)
    {i : Nat} {h h' : Host ℚ} (hh : p.hosts[i]? = some h) (hh' : q.hosts[i]? = some h')
    (hload : rule.isOverloaded h = .ok false) :
    rule.isOverloaded h' = .ok false := by
  have hbook := Pool.bookkeeping_of_reachable hp
  obtain ⟨h₀, hh₀, hbears, hon⟩ := (Pool.Underway.of_during hbook hspeed hq).host i h' hh'
  obtain rfl := Option.some.inj (hh.symm.trans hh₀)
  have hsame := threshold_congr hbears.history rule.upper
  by_cases hi : i ∈ plan.moves.map Prod.snd
  case pos =>
    obtain ⟨threshold, hthreshold, hcapacity, hwithin⟩ := planned_within hbook hspeed hplan hh hi
    rw [isOverloaded_eq_false_iff (hsame.trans hthreshold)]
    intro _
    calc h'.utilization = h'.load / h.processor.capacity := by
          rw [Host.utilization, hbears.capacity]
          exact if_neg (by simpa using hcapacity.ne')
      _ ≤ (h.load + p.plannedLoad plan.moves i) / h.processor.capacity :=
          div_le_div_of_nonneg_right hbears.load hcapacity.le
      _ ≤ threshold := hwithin
  case neg =>
    -- nothing comes to the host, so it was on if it is, and its load has not grown
    have hnone : ∀ m ∈ plan.moves, m.2 ≠ i := fun m hm heq => hi (List.mem_map.mpr ⟨m, hm, heq⟩)
    have hzero : p.plannedLoad plan.moves i = 0 := by
      rw [Pool.plannedLoad, List.filter_eq_nil_iff.mpr fun m hm => by simpa using hnone m hm]
      rfl
    rw [hzero] at hbears
    obtain ⟨threshold, hthreshold⟩ : ∃ threshold, rule.upper.of h = .ok threshold := by
      obtain ⟨start, chosen, es, rs, ns, hstart, -, -⟩ := plans_outcome hbook hplan
      obtain ⟨e, -, hof⟩ := exists_estimate hstart hh
      exact ⟨e.threshold, hof.threshold⟩
    rw [isOverloaded_eq_false_iff hthreshold] at hload
    rw [isOverloaded_eq_false_iff (hsame.trans hthreshold)]
    intro hactive
    have hactive : h.isActive = true := by
      rcases hon hactive with hactive | ⟨m, hm, heq⟩
      · exact hactive
      · exact absurd heq (hnone m hm)
    have hcapacity := capacity_nonneg (hcores h (List.mem_of_getElem? hh))
    exact (utilization_le hbears hcapacity).trans (hload hactive)

/-- Two machines come to the second host of the sample, and it is not overloaded. -/
theorem execution_overloads_no_host_sample : ∃ (p q : Pool ℚ) (plan : MigrationPlan)
    (h h' : Host ℚ), p.Reachable ∧ plan.moves = [(10, 1), (14, 1)] ∧ p.During plan q
      ∧ p.hosts[1]? = some h ∧ q.hosts[1]? = some h' ∧ h.load = 200 ∧ h'.load = 1200
      ∧ sampleRule.isOverloaded h' = .ok false := by
  obtain ⟨p, plan, next, hp, hplan, hcheck⟩ := exists_samplePlan
    (fun r : Pool ℚ × MigrationPlan × SelectionPolicy =>
      r.2.1.moves == [(10, 1), (14, 1)]
        && r.1.vms.values.all (fun v => decide (0 ≤ v.speed))
        && r.1.hosts.all (fun h => h.processor.cores.all fun c => decide (0 ≤ c.capacity))
        && r.1.hosts[1]?.any (fun h => h.load == 200
          && (sampleRule.isOverloaded h).toOption == some false)
        && (r.1.execute r.2.1).toOption.any (fun r =>
          (Pool.finishAll [14, 10] r.2).2.hosts[1]?.any fun h => h.load == 1200))
    (by decide +kernel) (by decide +kernel)
  simp only [Bool.and_eq_true, beq_iff_eq, List.all_eq_true, decide_eq_true_eq,
    Option.any_eq_true] at hcheck
  obtain ⟨⟨⟨⟨hmoves, hspeeds⟩, hcores⟩, h, hh, hload, hover⟩, r, hr, h', hh', hload'⟩ := hcheck
  have hspeed : p.NonnegativeSpeeds := fun k v hv =>
    hspeeds v (IdMap.mem_values_iff.mpr ⟨k, hv⟩)
  have hexecute : p.execute plan = .ok r := Fault.toOption_eq_some.mp hr
  have hunloaded : sampleRule.isOverloaded h = .ok false := Fault.toOption_eq_some.mp hover
  have hq : p.During plan (Pool.finishAll [14, 10] r.2).2 := .finishing [14, 10] hexecute
  exact ⟨p, _, plan, h, h', hp, hmoves, hq, hh, hh', hload, hload',
    execution_overloads_no_host hp hspeed hcores (plans_of_policy hp hplan) hq hh hh' hunloaded⟩

end Datacenter.Consolidation
