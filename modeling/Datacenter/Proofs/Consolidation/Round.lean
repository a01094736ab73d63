import Datacenter.Proofs.Consolidation.Choosing
import Datacenter.Proofs.Consolidation.Evacuating
import Datacenter.Proofs.Pool.Preservation

/-!
# What a round plans

The two phases of a round put together. `planFor_outcome` says what is planned once the relief of
the overloaded hosts has come to an end: the machines that it has selected are settled on other
hosts (`drafted_of_settleSelected`), and the hosts that are open then are candidates for an
evacuation (`candidates_openHosts`).

So what a round plans is `Drafted` from the estimates of the hosts as they are, whatever the
selector answers (`plans_outcome`). If the relief only selects machines that it offers, as `select`
does, the plan is `Planned` (`plan_outcome`).
-/

namespace Datacenter.Consolidation

variable {α σ : Type} [Scalar α] {rule : Rule α} {choose : Selector σ α} {s s' : σ} {p : Pool α}
  {eligible : List Nat} {plan : MigrationPlan} {start chosen es : List (Estimate α)}
  {selected : List (Vm α)} {rs ns : List (Vm α × Nat)} {search : HostSearch} {fit : TargetFit}

/-! ## The hosts as they are -/

theorem aligned_estimatesOf (hp : p.Bookkeeping) (hstart : estimatesOf rule p = .ok start) :
    Aligned start := by
  intro i e he
  obtain ⟨h, hh, hof⟩ := exists_host hstart he
  rw [hof.id, hp.hostId i h hh]

/-- The estimates know which hosts are overloaded. -/
theorem isOverloaded_eq (hp : p.Bookkeeping) (hstart : estimatesOf rule p = .ok start) {i : Nat}
    {h : Host α} (hh : p.hosts[i]? = some h) :
    rule.isOverloaded h = .ok (decide (i ∈ overloaded start)) := by
  obtain ⟨e, he, hof⟩ := exists_estimate hstart hh
  have hmem : i ∈ overloaded start ↔ (e.isActive && e.isOverloaded) = true := by
    rw [overloaded, (aligned_estimatesOf hp hstart).mem_map_id_iff, he]
    simp
  rw [hof.isOverloaded, Except.ok.injEq, Bool.eq_iff_iff, decide_eq_true_eq, hmem]

/-- Every estimate is that of a host as it is. -/
theorem isOf_of_getElem? (hstart : estimatesOf rule p = .ok start) {i : Nat} {h : Host α}
    {e : Estimate α} (hh : p.hosts[i]? = some h) (he : start[i]? = some e) : e.IsOf rule h := by
  obtain ⟨e', he', hof⟩ := exists_estimate hstart hh
  obtain rfl := Option.some.inj (he.symm.trans he')
  exact hof

/-! ## The round -/

/-- The first phase settles some of the selected machines, and switches no host off. -/
theorem drafted_of_settleSelected (rule : Rule α) (eligible : List Nat)
    {moves : List (Nat × Nat)} (hchosen : Relieved start chosen)
    (hselected : ∀ v ∈ selected, p.vms.find? v.id = some v)
    (hsettle : settleSelected search.findMax fit p.time (.ofList (overloaded start))
      (heaviestFirst p.time selected) chosen = (moves, es)) :
    ∃ rs, moves = movesOf rs ∧ (rs.map Prod.fst).Sublist (heaviestFirst p.time selected)
      ∧ Drafted rule p (.ofList eligible) start chosen es rs []
        (MigrationPlan.empty.insertAll moves) := by
  obtain ⟨rs, rfl, hsub, hsettled, htargets⟩ :=
    settleSelected_outcome (hchosen.aligned.of_sameHosts hchosen.sameHosts) hsettle
  have hoff : ∀ i, (MigrationPlan.empty.insertAll (movesOf rs)).switchOff.contains i = false := by
    intro i
    rw [MigrationPlan.switchOff_insertAll]
    rfl
  refine ⟨rs, rfl, hsub, ?_⟩
  constructor
  case moves => rw [List.append_nil]
  case settled => rwa [List.append_nil]
  case registered =>
    intro m hm
    rw [List.append_nil] at hm
    exact hselected m.1 (mem_stableSort.mp (hsub.subset (List.mem_map_of_mem hm)))
  case target =>
    intro m hm
    rw [List.append_nil] at hm
    exact ⟨IdSet.contains_ofList_eq_false.mp (htargets m hm), hoff m.2⟩
  case distinct => exact List.nodup_nil
  case allowed => exact List.forall_mem_nil _
  case free => exact List.forall_mem_nil _
  case origin => exact List.forall_mem_nil _
  case off =>
    intro i hi
    rw [hoff] at hi
    contradiction

/-- The hosts that may be evacuated when the first phase is over. -/
theorem candidates_openHosts (hchosen : Relieved start chosen)
    (hplan : Drafted rule p (.ofList eligible) start chosen es rs [] plan)
    (hon : ∀ i, plan.switchOff.contains i = false) :
    Candidates start rs plan
      (openHosts es (.ofList (overloaded start ++ (movesOf rs).map Prod.snd)))
      (.ofList (overloaded start ++ inactive es)) := by
  have hes : SameHosts start es := hchosen.sameHosts.trans hplan.settled.sameHosts
  have halign : Aligned es := hchosen.aligned.of_sameHosts hes
  have hopen : ∀ i ∈ openHosts es (.ofList (overloaded start ++ (movesOf rs).map Prod.snd)),
      (∃ e, es[i]? = some e ∧ e.isActive = true ∧ e.hasMigrations = false)
        ∧ i ∉ overloaded start ∧ ∀ m ∈ rs, m.2 ≠ i := by
    intro i hi
    obtain ⟨e, he, hcond⟩ := (halign.mem_map_id_iff _).mp hi
    simp only [Bool.and_eq_true, Bool.not_eq_true', IdSet.contains_ofList_eq_false,
      List.mem_append, not_or, map_snd_movesOf, halign i e he] at hcond
    obtain ⟨⟨hactive, hmigrations⟩, hload, htarget⟩ := hcond
    refine ⟨⟨e, he, hactive, hmigrations⟩, hload, ?_⟩
    rintro m hm rfl
    exact htarget (List.mem_map_of_mem hm)
  constructor
  case nodup => exact halign.nodup_map_id _
  case active =>
    intro i hi
    obtain ⟨e', he', hactive, hmigrations⟩ := (hopen i hi).1
    obtain ⟨e, he, hkin⟩ := hes.before he'
    exact ⟨e, he, hkin.isActive ▸ hactive, hkin.hasMigrations ▸ hmigrations⟩
  case unloaded => exact fun i hi => (hopen i hi).2.1
  case on => exact fun i _ => hon i
  case untouched => exact fun i hi => (hopen i hi).2.2
  case barred => exact fun i hi => IdSet.contains_ofList.mpr (List.mem_append_left _ hi)
  case closed =>
    intro i hi
    rw [hon] at hi
    contradiction

/-- What is planned once registered machines have been selected. -/
theorem planFor_outcome (hp : p.Bookkeeping) (hchosen : Relieved start chosen)
    (hselected : ∀ v ∈ selected, p.vms.find? v.id = some v) :
    ∃ es rs ns, (rs.map Prod.fst).Sublist (heaviestFirst p.time selected)
      ∧ Drafted rule p (.ofList eligible) start chosen es rs ns
        (planFor search.findMax fit rule.lower p (.ofList eligible) (overloaded start) selected
          chosen) := by
  unfold planFor
  cases hsettle : settleSelected search.findMax fit p.time (.ofList (overloaded start))
      (heaviestFirst p.time selected) chosen with
  | mk moves es =>
    obtain ⟨rs, rfl, hsub, hfirst⟩ :=
      drafted_of_settleSelected rule eligible hchosen hselected hsettle
    have hcandidates := candidates_openHosts hchosen hfirst fun i => by
      rw [MigrationPlan.switchOff_insertAll]
      rfl
    obtain ⟨ns, es', hplan⟩ :=
      evacuate_outcome hp hchosen hfirst (by rwa [List.append_nil])
    exact ⟨es', rs, ns, hsub, hplan⟩

/-- What a round plans, whatever the selector answers. -/
theorem plans_outcome (hp : p.Bookkeeping) (hplan : Plans rule choose s p eligible plan s') :
    ∃ start chosen es rs ns, estimatesOf rule p = .ok start ∧ Relieved start chosen
      ∧ Drafted rule p (.ofList eligible) start chosen es rs ns plan := by
  obtain ⟨start, selected, chosen, hstart, hrun, rfl⟩ := hplan
  have hend := (UnderRelief.init s (aligned_estimatesOf hp hstart)).run hp hrun
  obtain ⟨es, rs, ns, -, hdrafted⟩ := planFor_outcome hp hend.relieved hend.registered
  exact ⟨start, chosen, es, rs, ns, hstart, hend.relieved, hdrafted⟩

/-- What a round plans that selects machines among those it offers. -/
theorem plan_outcome (hp : p.Bookkeeping)
    (hplan : Consolidation.plan rule choose s p eligible = .ok (plan, s')) :
    ∃ start chosen es ms, estimatesOf rule p = .ok start ∧ Relieved start chosen
      ∧ Planned rule p (.ofList eligible) start chosen es ms plan := by
  obtain ⟨start, hstart, hplan⟩ := Fault.bind_eq_ok.mp hplan
  cases hplan
  have halign := aligned_estimatesOf hp hstart
  cases hselect : select choose p (.ofList eligible) (overloaded start) start s with
  | mk selected r =>
    obtain ⟨chosen, s₁⟩ := r
    obtain ⟨hselected, hids, hsame, hothers⟩ := select_outcome hp (halign.nodup_map_id _) hselect
    have hchosen : Relieved start chosen := ⟨halign, hsame, hothers⟩
    have hknown : ∀ v ∈ selected, p.vms.find? v.id = some v
        ∧ (∃ i ∈ overloaded start, v.host = some i) ∧ v.migration = .settled
        ∧ (IdSet.ofList eligible).contains v.id = true := by
      intro v hv
      obtain ⟨i, hi, h, hh, hv⟩ := hselected v hv
      obtain ⟨hfind, hhost, hsettled, heligible⟩ := of_mem_candidatesOn hp hh hv
      exact ⟨hfind, ⟨i, hi, hhost⟩, hsettled, heligible⟩
    obtain ⟨es, rs, ns, hsub, hdrafted⟩ :=
      planFor_outcome hp hchosen fun v hv => (hknown v hv).1
    have hmem : ∀ m ∈ rs, m.1 ∈ selected := fun m hm =>
      mem_stableSort.mp (hsub.subset (List.mem_map_of_mem hm))
    refine ⟨start, chosen, es, rs ++ ns, hstart, hchosen, hdrafted.planned ?_⟩
    constructor
    case distinct =>
      have hsorted : ((heaviestFirst p.time selected).map (·.id)).Nodup := by
        unfold heaviestFirst
        rwa [((perm_stableSort _ selected).map _).nodup_iff]
      have hnodup := (hsub.map (·.id)).nodup hsorted
      rwa [List.map_map] at hnodup
    case allowed => exact fun m hm => (hknown m.1 (hmem m hm)).2.2.2
    case free => exact fun m hm => (hknown m.1 (hmem m hm)).2.2.1
    case origin => exact fun m hm => (hknown m.1 (hmem m hm)).2.1

/-! ## A sample of a plan -/

/-- A rule with fixed thresholds. -/
def sampleRule : Rule α where
  search := .sequential
  fit := .best
  upper := .fixed 0.8
  lower := 0.3

/-- The sample of a pool, and the plan of a round in which all its machines may move. -/
def samplePlan : Except Fault (Pool α × MigrationPlan × SelectionPolicy) := do
  let p ← (Pool.new 0 5).performAll Pool.sampleRun
  let r ← Consolidation.plan sampleRule SelectionPolicy.select .minimumUtilization p
    [10, 11, 12, 13, 14]
  return (p, r)

/-- The sample of a pool is reachable, and what its plan passes a check for can be relied on. -/
theorem exists_samplePlan (check : Pool α × MigrationPlan × SelectionPolicy → Bool)
    (hzero : (Scalar.isFinite (0 : α) && 0 ≤ (0 : α) && (0 : α) ≤ 1) = true)
    (hcheck : samplePlan.toOption.any check = true) :
    ∃ (p : Pool α) (plan : MigrationPlan) (next : SelectionPolicy), p.Reachable
      ∧ Consolidation.plan sampleRule SelectionPolicy.select .minimumUtilization p
        [10, 11, 12, 13, 14] = .ok (plan, next)
      ∧ check (p, plan, next) = true := by
  cases hsample : samplePlan (α := α) with
  | error fault =>
    rw [hsample] at hcheck
    contradiction
  | ok r =>
    rw [hsample] at hcheck
    obtain ⟨p, hp, hr⟩ := Fault.bind_eq_ok.mp hsample
    obtain ⟨⟨plan, next⟩, hplan, hr⟩ := Fault.bind_eq_ok.mp hr
    cases hr
    have hreachable := (Pool.Reachable.new 0 5).performAll
      (Pool.isAdmissible_of_mem_sampleRun hzero) hp
    exact ⟨p, plan, next, hreachable, hplan, hcheck⟩

end Datacenter.Consolidation
