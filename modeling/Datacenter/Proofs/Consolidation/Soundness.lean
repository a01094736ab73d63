import Datacenter.Binary64.Basic
import Datacenter.Proofs.Consolidation.Relieving

/-!
# Soundness of plans

What a round plans, in terms of the pool. `plan_evacuates` says that the machines of a host that is
not overloaded leave it together or not at all, and what is known of the hosts to switch off.
`plan_moves` says which machines move, and between which hosts.

Both are read off what holds of the plan at every moment of the round, `Drafted` if the selector may
answer with any machine and `Planned` if it keeps to what it is offered. Hosts are switched off for
good reasons in either case (`Drafted.isEvacuated`). That no machine leaves another host needs a
selector that keeps to what it is offered: one that names a machine of a host that is not overloaded
makes it move.
-/

namespace Datacenter.Consolidation

variable {α σ : Type} [Scalar α] {rule : Rule α} {choose : Selector σ α} {s s' : σ} {p : Pool α}
  {eligible : List Nat} {plan : MigrationPlan} {start chosen es : List (Estimate α)}
  {ms rs ns : List (Vm α × Nat)}

/-! ## One host -/

/-- Every machine that is to move moves. -/
theorem Drafted.contains_iff
    (hplan : Drafted rule p (.ofList eligible) start chosen es rs ns plan) {k : Nat} :
    plan.contains k = true ↔ k ∈ (rs ++ ns).map (·.1.id) := by
  have hempty : ¬ MigrationPlan.empty.contains k = true := Bool.false_ne_true
  rw [MigrationPlan.contains_iff, hplan.moves, ← MigrationPlan.contains_iff,
    MigrationPlan.contains_insertAll, map_fst_movesOf, or_iff_right hempty]

/-- No machine goes to a host that is to be switched off. -/
theorem Drafted.avoided
    (hplan : Drafted rule p (.ofList eligible) start chosen es rs ns plan) {i : Nat}
    (hi : plan.switchOff.contains i = true) : ∀ m ∈ plan.moves, m.2 ≠ i := by
  obtain ⟨planned, hsub, hmoves⟩ :=
    MigrationPlan.exists_moves_insertAll .empty (movesOf (rs ++ ns))
  rw [hplan.moves, hmoves]
  rintro _ hmove rfl
  obtain ⟨m, hm, rfl⟩ := List.mem_map.mp (hsub.subset hmove)
  rw [(hplan.target m hm).2] at hi
  contradiction

theorem Planned.contains_iff
    (hplan : Planned rule p (.ofList eligible) start chosen es ms plan) {k : Nat} :
    plan.contains k = true ↔ k ∈ ms.map (·.1.id) := by
  rw [MigrationPlan.contains_iff, hplan.moves, map_fst_movesOf]

/-- A resident of a host is registered there. -/
theorem exists_resident (hp : p.Bookkeeping) {i k : Nat} {h : Host α} (hh : p.hosts[i]? = some h)
    (hk : h.residents.contains k = true) :
    ∃ v, v ∈ p.residentsOf h ∧ v.id = k ∧ p.vms.find? k = some v ∧ v.host = some i := by
  have hids := hp.map_id_residentsOf hh
  have hmem : k ∈ (p.residentsOf h).map (·.id) := by rw [hids, IdMap.mem_keys_iff, hk]
  obtain ⟨v, hv, rfl⟩ := List.mem_map.mp hmem
  obtain ⟨hfind, hi⟩ := (hp.mem_residentsOf hh).mp hv
  exact ⟨v, hv, rfl, hfind, hi⟩

/-- A host that loses machines is on, and it is overloaded or evacuated for being underloaded. -/
theorem Planned.source_outcome
    (hplan : Planned rule p (.ofList eligible) start chosen es ms plan) (hp : p.Bookkeeping)
    (hstart : estimatesOf rule p = .ok start) {m : Vm α × Nat} (hm : m ∈ ms) {i : Nat} {h : Host α}
    (hi : m.1.host = some i) (hh : p.hosts[i]? = some h) :
    h.isActive = true ∧ (rule.isOverloaded h = .ok true
      ∨ rule.isOverloaded h = .ok false ∧ rule.isUnderloaded h = true
        ∧ ∃ e, start[m.2]? = some e ∧ e.isActive = true) := by
  obtain ⟨s, hs, horigin⟩ := hplan.origin m hm
  obtain rfl := Option.some.inj (hi.symm.trans hs)
  rw [isOverloaded_eq hp hstart hh]
  rcases horigin with hover | ⟨hoff, htarget⟩
  · obtain ⟨e, he, hcond⟩ := ((aligned_estimatesOf hp hstart).mem_map_id_iff _).mp hover
    rw [Bool.and_eq_true] at hcond
    refine ⟨?_, .inl (by rw [decide_eq_true hover])⟩
    rw [← (isOf_of_getElem? hstart hh he).isActive, hcond.1]
  · obtain ⟨h', e, hleft⟩ := hplan.off i hoff
    have hof := isOf_of_getElem? hstart hh hleft.estimate
    refine ⟨by rw [← hof.isActive, hleft.active],
      .inr ⟨by rw [decide_eq_false hleft.unloaded], ?_, htarget⟩⟩
    rw [hof.isUnderloaded, hleft.active, hleft.underloaded]
    rfl

/-- What holds of a host that a plan switches off. -/
structure IsEvacuated (rule : Rule α) (p : Pool α) (eligible : List Nat) (plan : MigrationPlan)
    (i : Nat) (h : Host α) : Prop where
  /-- The host is on. -/
  active : h.isActive = true
  /-- The host is not overloaded. -/
  unloaded : rule.isOverloaded h = .ok false
  /-- The host is underloaded. -/
  underloaded : rule.isUnderloaded h = true
  /-- No migration from or to the host is under way. -/
  quiet : h.hasMigrations = false
  /-- Every machine on the host may move, is settled, and moves. -/
  leave : ∀ k, h.residents.contains k = true → k ∈ eligible ∧ plan.contains k = true
    ∧ ∃ v, p.vms.find? k = some v ∧ v.migration = .settled
  /-- No machine moves to the host. -/
  avoided : ∀ m ∈ plan.moves, m.2 ≠ i

/-- All machines of a host that is switched off move. -/
theorem Drafted.leave
    (hplan : Drafted rule p (.ofList eligible) start chosen es rs ns plan) (hp : p.Bookkeeping)
    {i : Nat} {h : Host α} (hh : p.hosts[i]? = some h) (hi : plan.switchOff.contains i = true)
    {k : Nat} (hk : h.residents.contains k = true) :
    k ∈ eligible ∧ plan.contains k = true
      ∧ ∃ v, p.vms.find? k = some v ∧ v.migration = .settled := by
  obtain ⟨h', e, hleft⟩ := hplan.off i hi
  obtain rfl := Option.some.inj (hh.symm.trans hleft.host)
  obtain ⟨v, hv, rfl, hfind, -⟩ := exists_resident hp hh hk
  obtain ⟨heligible, hsettled, hmem⟩ := hleft.leave v hv
  have hmoves : v.id ∈ (rs ++ ns).map (·.1.id) := by
    rw [List.map_append]
    exact List.mem_append_right _ hmem
  exact ⟨IdSet.contains_ofList.mp heligible, hplan.contains_iff.mpr hmoves, v, hfind, hsettled⟩

theorem Drafted.isEvacuated
    (hplan : Drafted rule p (.ofList eligible) start chosen es rs ns plan) (hp : p.Bookkeeping)
    (hstart : estimatesOf rule p = .ok start) {i : Nat} (hi : plan.switchOff.contains i = true) :
    ∃ h, p.hosts[i]? = some h ∧ IsEvacuated rule p eligible plan i h := by
  obtain ⟨h, e, hleft⟩ := hplan.off i hi
  have hof := isOf_of_getElem? hstart hleft.host hleft.estimate
  refine ⟨h, hleft.host, ?_⟩
  constructor
  case active => rw [← hof.isActive, hleft.active]
  case unloaded => rw [isOverloaded_eq hp hstart hleft.host, decide_eq_false hleft.unloaded]
  case underloaded =>
    rw [hof.isUnderloaded, hleft.active, hleft.underloaded]
    rfl
  case quiet => rw [← hof.hasMigrations, hleft.quiet]
  case leave => exact fun k hk => hplan.leave hp hleft.host hi hk
  case avoided => exact hplan.avoided hi

/-- No machine of a host that is neither overloaded nor switched off moves. -/
theorem Planned.stay
    (hplan : Planned rule p (.ofList eligible) start chosen es ms plan) (hp : p.Bookkeeping)
    (hstart : estimatesOf rule p = .ok start) {i : Nat} {h : Host α} (hh : p.hosts[i]? = some h)
    (hload : rule.isOverloaded h = .ok false) (hi : plan.switchOff.contains i = false)
    {k : Nat} (hk : h.residents.contains k = true) : plan.contains k = false := by
  rw [isOverloaded_eq hp hstart hh, Except.ok.injEq, decide_eq_false_iff_not] at hload
  obtain ⟨v, -, rfl, hfind, hvi⟩ := exists_resident hp hh hk
  rw [Bool.eq_false_iff, ne_eq, hplan.contains_iff]
  exact hplan.not_mem_of_host hfind hvi hload hi

/-- If the selector keeps to what it is offered, the machines of a host that is on and not
overloaded all move, and the host is switched off, or none of them moves; and hosts are switched off
only if that is sound. -/
theorem plan_evacuates (hp : p.Reachable) (hchoose : Selector.IsSound choose)
    (hplan : Plans rule choose s p eligible plan s') :
    (∀ (i : Nat) (h : Host α), p.hosts[i]? = some h → h.isActive = true →
      rule.isOverloaded h = .ok false →
      (∀ k, h.residents.contains k = true → plan.contains k = false)
        ∨ plan.switchOff.contains i = true
          ∧ ∀ k, h.residents.contains k = true → plan.contains k = true)
    ∧ ∀ i, plan.switchOff.contains i = true →
      ∃ h, p.hosts[i]? = some h ∧ IsEvacuated rule p eligible plan i h := by
  have hbook := Pool.bookkeeping_of_reachable hp
  obtain ⟨start, chosen, es, rs, ns, hstart, -, hdrafted⟩ := plans_outcome hbook hplan
  refine ⟨fun i h hh _ hload => ?_, fun i hi => hdrafted.isEvacuated hbook hstart hi⟩
  cases hi : plan.switchOff.contains i with
  | true => exact .inr ⟨rfl, fun k hk => (hdrafted.leave hbook hh hi hk).2.1⟩
  | false =>
    left
    intro k hk
    obtain ⟨start, chosen, es, ms, hstart, -, hplanned⟩ :=
      plan_outcome hbook ((plans_iff hbook hchoose).mp hplan)
    exact hplanned.stay hbook hstart hh hload hi hk

/-- The lightly loaded host of the sample is evacuated. -/
theorem plan_evacuates_sample : ∃ (p : Pool Binary64) (plan : MigrationPlan),
    p.Reachable ∧ plan.moves = [(10, 1), (14, 1)] ∧ plan.switchOff.keys = [3]
      ∧ ∃ h, p.hosts[3]? = some h ∧ IsEvacuated sampleRule p [10, 11, 12, 13, 14] plan 3 h := by
  obtain ⟨p, plan, next, hp, hplan, hcheck⟩ := exists_samplePlan
    (fun r : Pool Binary64 × MigrationPlan × SelectionPolicy =>
      r.2.1.moves == [(10, 1), (14, 1)] && r.2.1.switchOff.keys == [3])
    (by decide +kernel) (by decide +kernel)
  rw [Bool.and_eq_true, beq_iff_eq, beq_iff_eq] at hcheck
  obtain ⟨hmoves, hoff⟩ := hcheck
  have hthree : plan.switchOff.contains 3 = true := by
    rw [← IdMap.mem_keys_iff, hoff]
    exact List.mem_singleton_self 3
  have hevacuates := plan_evacuates hp SelectionPolicy.isSound_select (plans_of_policy hp hplan)
  exact ⟨p, plan, hp, hmoves, hoff, hevacuates.2 3 hthree⟩

/-! ## One move -/

/-- What holds of the move of a machine to a host. -/
structure IsSoundMove (rule : Rule α) (p : Pool α) (eligible : List Nat) (vm target : Nat)
    (source : Nat) (hs ht : Host α) : Prop where
  /-- The machine may move. -/
  eligible : vm ∈ eligible
  /-- The machine takes no part in a migration. -/
  settled : p.migrations.find? vm = none ∧ ∃ v, p.vms.find? vm = some v ∧ v.migration = .settled
  /-- The machine resides on the source. -/
  location : p.location? vm = some source ∧ hs.residents.contains vm = true
  /-- The source is on. -/
  active : hs.isActive = true
  /-- The source is overloaded or underloaded. -/
  reason : rule.isOverloaded hs = .ok true
    ∨ rule.isOverloaded hs = .ok false ∧ rule.isUnderloaded hs = true
  /-- The target is another host. -/
  ne : source ≠ target
  /-- The target is not overloaded. -/
  unloaded : rule.isOverloaded ht = .ok false
  /-- Only to relieve an overloaded host is a target switched on. -/
  on : rule.isOverloaded hs = .ok false → ht.isActive = true

/-- No host both loses and gains machines: sources are overloaded or switched off, and targets are
neither. -/
theorem Planned.apart
    (hplan : Planned rule p (.ofList eligible) start chosen es ms plan) {m m' : Vm α × Nat}
    (hm : m ∈ ms) (hm' : m' ∈ ms) : p.location? m.1.id ≠ some m'.2 := by
  rw [Pool.location?, hplan.registered m hm]
  intro heq
  obtain ⟨s, hs, horigin⟩ := hplan.origin m hm
  obtain rfl := Option.some.inj (hs.symm.trans heq)
  rcases horigin with hover | ⟨hoff, -⟩
  · exact (hplan.target m' hm').1 hover
  · rw [(hplan.target m' hm').2] at hoff
    contradiction

theorem Planned.isSoundMove
    (hplan : Planned rule p (.ofList eligible) start chosen es ms plan) (hp : p.Bookkeeping)
    (hstart : estimatesOf rule p = .ok start) {m : Vm α × Nat} (hm : m ∈ ms) {source : Nat}
    {hs ht : Host α} (hsource : m.1.host = some source) (hhs : p.hosts[source]? = some hs)
    (hht : p.hosts[m.2]? = some ht) :
    IsSoundMove rule p eligible m.1.id m.2 source hs ht := by
  have hfind := hplan.registered m hm
  have hsettled := hplan.free m hm
  have hlocation : p.location? m.1.id = some source := by
    rw [Pool.location?, hfind]
    exact hsource
  obtain ⟨hactive, hreason⟩ := hplan.source_outcome hp hstart hm hsource hhs
  constructor
  case eligible => exact IdSet.contains_ofList.mp (hplan.allowed m hm)
  case settled => exact ⟨(hp.settled_iff hfind).mp hsettled, m.1, hfind, hsettled⟩
  case location =>
    refine ⟨hlocation, ?_⟩
    rw [← IdMap.mem_keys_iff, ← hp.map_id_residentsOf hhs]
    exact List.mem_map_of_mem ((hp.mem_residentsOf hhs).mpr ⟨hfind, hsource⟩)
  case active => exact hactive
  case reason => exact hreason.imp_right fun h => ⟨h.1, h.2.1⟩
  case ne =>
    rintro rfl
    exact hplan.apart hm hm hlocation
  case unloaded => rw [isOverloaded_eq hp hstart hht, decide_eq_false (hplan.target m hm).1]
  case on =>
    intro hload
    rcases hreason with hover | ⟨-, -, e, he, hactive⟩
    · rw [hover] at hload
      cases hload
    · rw [← (isOf_of_getElem? hstart hht he).isActive, hactive]

/-- Every machine moves at most once, every move is sound, and no host both loses and gains
machines. -/
theorem plan_moves (hp : p.Reachable)
    (hplan : Consolidation.plan rule choose s p eligible = .ok (plan, s')) :
    (plan.moves.map Prod.fst).Nodup
    ∧ (∀ m ∈ plan.moves, ∃ source hs ht, p.hosts[source]? = some hs ∧ p.hosts[m.2]? = some ht
      ∧ IsSoundMove rule p eligible m.1 m.2 source hs ht)
    ∧ ∀ m ∈ plan.moves, ∀ m' ∈ plan.moves, p.location? m.1 ≠ some m'.2 := by
  have hbook := Pool.bookkeeping_of_reachable hp
  obtain ⟨start, chosen, es, ms, hstart, hchosen, hplanned⟩ := plan_outcome hbook hplan
  rw [hplanned.moves]
  refine ⟨by simpa using hplanned.distinct, ?_, ?_⟩
  · intro _ hmove
    obtain ⟨m, hm, rfl⟩ := List.mem_map.mp hmove
    obtain ⟨source, hs, -⟩ := hplanned.origin m hm
    have hlt := (hbook.registered m.1.id).placed m.1 source (hplanned.registered m hm) hs
    obtain ⟨e, he⟩ := hplanned.settled.exists_of_mem hm
    obtain ⟨e₀, he₀, -⟩ := hchosen.sameHosts.before he
    obtain ⟨ht, hht, -⟩ := exists_host hstart he₀
    exact ⟨source, p.hosts[source], ht, List.getElem?_eq_getElem hlt, hht,
      hplanned.isSoundMove hbook hstart hm hs (List.getElem?_eq_getElem hlt) hht⟩
  · intro _ hmove _ hmove'
    obtain ⟨m, hm, rfl⟩ := List.mem_map.mp hmove
    obtain ⟨m', hm', rfl⟩ := List.mem_map.mp hmove'
    exact hplanned.apart hm hm'

/-- The move that relieves the heavily loaded host of the sample is sound. -/
theorem plan_moves_sample : ∃ (p : Pool Binary64) (plan : MigrationPlan) (source : Nat)
    (hs ht : Host Binary64), p.Reachable ∧ plan.moves = [(10, 1), (14, 1)]
      ∧ p.hosts[source]? = some hs ∧ p.hosts[1]? = some ht
      ∧ IsSoundMove sampleRule p [10, 11, 12, 13, 14] 10 1 source hs ht := by
  obtain ⟨p, plan, next, hp, hplan, hcheck⟩ := exists_samplePlan
    (fun r : Pool Binary64 × MigrationPlan × SelectionPolicy =>
      r.2.1.moves == [(10, 1), (14, 1)])
    (by decide +kernel) (by decide +kernel)
  have hmoves : plan.moves = [(10, 1), (14, 1)] := eq_of_beq hcheck
  obtain ⟨-, hsound, -⟩ := plan_moves hp hplan
  obtain ⟨source, hs, ht, hhs, hht, hmove⟩ := hsound (10, 1) (by simp [hmoves])
  exact ⟨p, plan, source, hs, ht, hp, hmoves, hhs, hht, hmove⟩

end Datacenter.Consolidation
