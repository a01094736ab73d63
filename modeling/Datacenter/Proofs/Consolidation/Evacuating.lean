import Datacenter.Proofs.Consolidation.Settling
import Datacenter.Proofs.Consolidation.Steps
import Datacenter.Proofs.IdMap
import Datacenter.Proofs.MigrationPlan

/-!
# Evacuating hosts

The second phase of a round goes on with the plan and the estimates of the first one. `Drafted` is
what holds of the plan at every moment, whatever the selector has answered: which machines move and
where to, and what is known of the hosts to switch off. `Candidates` is what holds of the hosts that
may still be evacuated: nothing that is planned touches them, so their estimates are those from the
start.

If the machines of the first phase come from overloaded hosts (`FromOverloaded`), as they do if the
selector keeps to what it is offered, then no machine moves twice. `Planned` is what is known then.

## Shape of the proof

`Leaving` is what is known of the machines that leave an evacuated host, and `Drafted.evacuate` and
`Candidates.evacuate` carry plan and candidates over one evacuation. This needs that the machines of
the source have not been evacuated yet: such a machine resides on a host to be switched off, and the
source is none. `evacuate_outcome` follows the loop; a host that cannot be evacuated leaves the
candidates and nothing else changes.
-/

namespace Datacenter.Consolidation

variable {α : Type} [Scalar α]

/-- Host `i` is to be switched off and all its machines move, which are among those with the given
ids. -/
structure IsLeft (rule : Rule α) (p : Pool α) (eligible : IdSet) (start : List (Estimate α))
    (ids : List Nat) (i : Nat) (h : Host α) (e : Estimate α) : Prop where
  host : p.hosts[i]? = some h
  estimate : start[i]? = some e
  active : e.isActive = true
  quiet : e.hasMigrations = false
  underloaded : e.isUnderloaded rule.lower = true
  unloaded : i ∉ overloaded start
  leave : ∀ v ∈ p.residentsOf h, eligible.contains v.id = true ∧ v.migration = .settled ∧ v.id ∈ ids

/-- What a round has planned: the machines `rs` leave overloaded hosts, as far as the selector has
kept to them, and the machines `ns` evacuated ones. Of several moves of a machine the first one
counts. The estimates `start` of the hosts as they were have become `chosen` by choosing machines
and then `es` by settling them. -/
structure Drafted (rule : Rule α) (p : Pool α) (eligible : IdSet)
    (start chosen es : List (Estimate α)) (rs ns : List (Vm α × Nat)) (plan : MigrationPlan) :
    Prop where
  moves : plan.moves = (MigrationPlan.empty.insertAll (movesOf (rs ++ ns))).moves
  settled : Settled p.time (rs ++ ns) chosen es
  registered : ∀ m ∈ rs ++ ns, p.vms.find? m.1.id = some m.1
  target : ∀ m ∈ rs ++ ns, m.2 ∉ overloaded start ∧ plan.switchOff.contains m.2 = false
  distinct : (ns.map (·.1.id)).Nodup
  allowed : ∀ m ∈ ns, eligible.contains m.1.id = true
  free : ∀ m ∈ ns, m.1.migration = .settled
  origin : ∀ m ∈ ns, ∃ s, m.1.host = some s ∧ plan.switchOff.contains s = true
    ∧ ∃ e, start[m.2]? = some e ∧ e.isActive = true
  off : ∀ i, plan.switchOff.contains i = true →
    ∃ h e, IsLeft rule p eligible start (ns.map (·.1.id)) i h e

/-- What is known of the hosts that may still be evacuated, and of those that take no machines. -/
structure Candidates (start : List (Estimate α)) (ms : List (Vm α × Nat)) (plan : MigrationPlan)
    (openHosts : List Nat) (excluded : IdSet) : Prop where
  nodup : openHosts.Nodup
  active : ∀ i ∈ openHosts, ∃ e, start[i]? = some e ∧ e.isActive = true ∧ e.hasMigrations = false
  unloaded : ∀ i ∈ openHosts, i ∉ overloaded start
  on : ∀ i ∈ openHosts, plan.switchOff.contains i = false
  untouched : ∀ i ∈ openHosts, ∀ m ∈ ms, m.2 ≠ i
  barred : ∀ i ∈ overloaded start, excluded.contains i = true
  closed : ∀ i, plan.switchOff.contains i = true → excluded.contains i = true

variable {rule : Rule α} {p : Pool α} {eligible excluded : IdSet}
  {start chosen es es' : List (Estimate α)} {ms rs ns : List (Vm α × Nat)} {plan : MigrationPlan}
  {openHosts : List Nat} {search : HostSearch} {fit : TargetFit}

/-- A host that cannot be evacuated is passed over. -/
theorem Candidates.pass (hc : Candidates start ms plan openHosts excluded) (i : Nat) :
    Candidates start ms plan (openHosts.erase i) (excluded.add i) where
  nodup := hc.nodup.erase i
  active j hj := hc.active j (List.mem_of_mem_erase hj)
  unloaded j hj := hc.unloaded j (List.mem_of_mem_erase hj)
  on j hj := hc.on j (List.mem_of_mem_erase hj)
  untouched j hj := hc.untouched j (List.mem_of_mem_erase hj)
  barred j hj := by simp [hc.barred j hj]
  closed j hj := by simp [hc.closed j hj]

/-- The estimate of a candidate is still the one from the start. -/
theorem Candidates.estimate (hc : Candidates start (rs ++ ns) plan openHosts excluded)
    (hplan : Drafted rule p eligible start chosen es rs ns plan)
    (hchosen : Relieved start chosen) {i : Nat} (hi : i ∈ openHosts) : es[i]? = start[i]? := by
  rw [hplan.settled.getElem?_of_ne (hc.untouched i hi), hchosen.elsewhere i (hc.unloaded i hi)]

/-- The machines of a host that is not to be switched off are not evacuated. -/
theorem Drafted.not_mem_of_host (hplan : Drafted rule p eligible start chosen es rs ns plan)
    {v : Vm α} {i : Nat} (hv : p.vms.find? v.id = some v) (hi : v.host = some i)
    (hon : plan.switchOff.contains i = false) : v.id ∉ ns.map (·.1.id) := by
  intro hmem
  obtain ⟨m, hm, hid⟩ := List.mem_map.mp hmem
  have hfind := hplan.registered m (List.mem_append_right rs hm)
  rw [hid, hv] at hfind
  obtain ⟨s, hs, hoff, -⟩ := hplan.origin m hm
  rw [← Option.some.inj hfind, hi] at hs
  obtain rfl := Option.some.inj hs
  rw [hon] at hoff
  contradiction

/-- What is known of the machines `ns` that leave host `i` when it is evacuated. -/
structure Leaving (p : Pool α) (eligible excluded : IdSet) (es : List (Estimate α)) (i : Nat)
    (h : Host α) (ns : List (Vm α × Nat)) : Prop where
  resident : ∀ m ∈ ns, p.vms.find? m.1.id = some m.1 ∧ m.1.host = some i
  allowed : ∀ m ∈ ns, eligible.contains m.1.id = true
  free : ∀ m ∈ ns, m.1.migration = .settled
  distinct : (ns.map (·.1.id)).Nodup
  all : ∀ v ∈ p.residentsOf h, ∃ m ∈ ns, m.1 = v
  target : ∀ m ∈ ns, m.2 ≠ i ∧ excluded.contains m.2 = false
    ∧ ∃ e, es[m.2]? = some e ∧ e.isActive = true

/-- The machines that leave an evacuated host are its residents. -/
theorem leaving_of_evacuation? {h : Host α} {i : Nat} {moves : List (Nat × Nat)}
    (hp : p.Bookkeeping) (hh : p.hosts[i]? = some h) (hes : Aligned es)
    (hevac : evacuation? search.findMax fit p eligible (excluded.add i) h es = some (moves, es')) :
    ∃ ns, moves = movesOf ns ∧ Settled p.time ns es es'
      ∧ Leaving p eligible excluded es i h ns := by
  unfold evacuation? at hevac
  dsimp only at hevac
  split at hevac
  · contradiction
  rename_i hfree
  have hleaves : ∀ v ∈ p.residentsOf h, v.migration = .settled ∧ eligible.contains v.id = true := by
    simpa [Vm.isMigrating, not_or] using hfree
  -- the machines are settled heaviest first, which is a permutation of the residents
  obtain ⟨ns, rfl, hns, hsettled, htargets⟩ := settleAll?_outcome hes hevac
  have hperm : (ns.map Prod.fst).Perm (p.residentsOf h) := by
    rw [hns]
    exact perm_stableSort _ _
  have hmem : ∀ m ∈ ns, m.1 ∈ p.residentsOf h := fun m hm =>
    hperm.mem_iff.mp (List.mem_map_of_mem hm)
  refine ⟨ns, rfl, hsettled, ?_⟩
  constructor
  case resident => exact fun m hm => (hp.mem_residentsOf hh).mp (hmem m hm)
  case allowed => exact fun m hm => (hleaves m.1 (hmem m hm)).2
  case free => exact fun m hm => (hleaves m.1 (hmem m hm)).1
  case distinct =>
    have hnodup : ((ns.map Prod.fst).map (·.id)).Nodup := by
      rw [(hperm.map _).nodup_iff, hp.map_id_residentsOf hh]
      exact IdMap.nodup_keys _
    rwa [List.map_map] at hnodup
  case all =>
    intro v hv
    exact List.mem_map.mp (hperm.mem_iff.mpr hv)
  case target =>
    intro m hm
    obtain ⟨hexcluded, hactive⟩ := htargets m hm
    simp only [IdSet.contains_add, Bool.or_eq_false_iff, decide_eq_false_iff_not] at hexcluded
    exact ⟨hexcluded.1, hexcluded.2, hactive⟩

/-- The hosts to switch off after an evacuation. -/
theorem contains_switchOff_markOff (plan : MigrationPlan) (moves : List (Nat × Nat)) (i j : Nat) :
    ((plan.insertAll moves).markOff i).switchOff.contains j
      = (decide (j = i) || plan.switchOff.contains j) := by
  rw [MigrationPlan.markOff, IdSet.contains_add, MigrationPlan.switchOff_insertAll]

/-- The plan after an evacuation: all machines of a candidate move, and it is to be switched off. -/
theorem Drafted.evacuate {e : Estimate α} {h : Host α} {i : Nat} {ls : List (Vm α × Nat)}
    (hchosen : Relieved start chosen) (hplan : Drafted rule p eligible start chosen es rs ns plan)
    (hc : Candidates start (rs ++ ns) plan openHosts excluded) (hi : i ∈ openHosts)
    (he : es[i]? = some e) (hunder : e.isUnderloaded rule.lower = true)
    (hh : p.hosts[i]? = some h) (hsettled : Settled p.time ls es es')
    (hls : Leaving p eligible excluded es i h ls) :
    Drafted rule p eligible start chosen es' rs (ns ++ ls)
      ((plan.insertAll (movesOf ls)).markOff i) := by
  have hoff := contains_switchOff_markOff plan (movesOf ls) i
  constructor
  case moves =>
    show (plan.insertAll (movesOf ls)).moves = _
    rw [← List.append_assoc, movesOf_append, MigrationPlan.insertAll_append]
    exact MigrationPlan.moves_insertAll_congr hplan.moves _
  case settled =>
    rw [← List.append_assoc]
    exact hplan.settled.append hsettled
  case registered =>
    rw [← List.append_assoc]
    exact List.forall_mem_append.mpr ⟨hplan.registered, fun m hm => (hls.resident m hm).1⟩
  case target =>
    rw [← List.append_assoc]
    refine List.forall_mem_append.mpr ⟨fun m hm => ⟨(hplan.target m hm).1, ?_⟩, fun m hm => ?_⟩
    · rw [hoff, (hplan.target m hm).2, decide_eq_false (hc.untouched i hi m hm)]
      rfl
    · -- overloaded hosts and hosts to be switched off are excluded
      obtain ⟨hne, hexcluded, -⟩ := hls.target m hm
      refine ⟨fun hover => ?_, ?_⟩
      · rw [hc.barred _ hover] at hexcluded
        contradiction
      · rw [hoff, decide_eq_false hne, Bool.false_or, Bool.eq_false_iff]
        intro hclosed
        rw [hc.closed _ hclosed] at hexcluded
        contradiction
  case distinct =>
    -- the machines of the source are not evacuated yet: it is not to be switched off
    rw [List.map_append, List.nodup_append]
    refine ⟨hplan.distinct, hls.distinct, ?_⟩
    rintro k hk _ hk' rfl
    obtain ⟨m, hm, rfl⟩ := List.mem_map.mp hk'
    obtain ⟨hfind, hhost⟩ := hls.resident m hm
    exact hplan.not_mem_of_host hfind hhost (hc.on i hi) hk
  case allowed => exact List.forall_mem_append.mpr ⟨hplan.allowed, hls.allowed⟩
  case free => exact List.forall_mem_append.mpr ⟨hplan.free, hls.free⟩
  case origin =>
    refine List.forall_mem_append.mpr ⟨fun m hm => ?_, fun m hm => ?_⟩
    · obtain ⟨s, hs, horigin, hactive⟩ := hplan.origin m hm
      exact ⟨s, hs, by rw [hoff, horigin, Bool.or_true], hactive⟩
    · obtain ⟨-, -, e', he', hactive⟩ := hls.target m hm
      obtain ⟨e₀, he₀, hkin⟩ := (hchosen.sameHosts.trans hplan.settled.sameHosts).before he'
      refine ⟨i, (hls.resident m hm).2, ?_, e₀, he₀, hkin.isActive ▸ hactive⟩
      rw [hoff, decide_eq_true rfl, Bool.true_or]
  case off =>
    intro j hj
    rw [hoff, Bool.or_eq_true, decide_eq_true_eq] at hj
    rw [List.map_append]
    rcases hj with rfl | hj
    · obtain ⟨e₀, he₀, hactive, hmigrations⟩ := hc.active j hi
      obtain rfl : e₀ = e :=
        Option.some.inj (he₀.symm.trans ((hc.estimate hplan hchosen hi).symm.trans he))
      refine ⟨h, e₀, hh, he₀, hactive, hmigrations, hunder, hc.unloaded j hi, fun v hv => ?_⟩
      obtain ⟨m, hm, rfl⟩ := hls.all v hv
      exact ⟨hls.allowed m hm, hls.free m hm, List.mem_append_right _ (List.mem_map_of_mem hm)⟩
    · obtain ⟨h', e', hleft⟩ := hplan.off j hj
      refine ⟨h', e', { hleft with leave := fun v hv => ?_ }⟩
      obtain ⟨heligible, hsettled, hmem⟩ := hleft.leave v hv
      exact ⟨heligible, hsettled, List.mem_append_left _ hmem⟩

/-- The candidates after an evacuation: neither the source nor a target is one of them any more. -/
theorem Candidates.evacuate {i : Nat} {ns : List (Vm α × Nat)}
    (hc : Candidates start ms plan openHosts excluded) :
    Candidates start (ms ++ ns) ((plan.insertAll (movesOf ns)).markOff i)
      ((openHosts.erase i).removeAll ((movesOf ns).map Prod.snd)) (excluded.add i) := by
  have hoff := contains_switchOff_markOff plan (movesOf ns) i
  have hsub : ∀ j ∈ (openHosts.erase i).removeAll ((movesOf ns).map Prod.snd),
      j ∈ openHosts ∧ j ≠ i ∧ ∀ m ∈ ns, m.2 ≠ j := by
    intro j hj
    obtain ⟨hj, hnot⟩ := List.mem_filter.mp hj
    rw [hc.nodup.mem_erase_iff] at hj
    refine ⟨hj.2, hj.1, ?_⟩
    rintro m hm rfl
    simp only [map_snd_movesOf, List.elem_eq_mem, List.mem_map, Bool.not_eq_true',
      decide_eq_false_iff_not] at hnot
    exact hnot ⟨m, hm, rfl⟩
  constructor
  case nodup => exact (hc.nodup.erase i).filter _
  case active => exact fun j hj => hc.active j (hsub j hj).1
  case unloaded => exact fun j hj => hc.unloaded j (hsub j hj).1
  case on =>
    intro j hj
    obtain ⟨hj, hne, -⟩ := hsub j hj
    rw [hoff, hc.on j hj, decide_eq_false hne]
    rfl
  case untouched =>
    intro j hj m hm
    exact (List.mem_append.mp hm).elim (hc.untouched j (hsub j hj).1 m) ((hsub j hj).2.2 m)
  case barred =>
    intro j hj
    simp [hc.barred j hj]
  case closed =>
    intro j hj
    rw [hoff, Bool.or_eq_true] at hj
    rw [IdSet.contains_add, Bool.or_eq_true]
    exact hj.imp_right (hc.closed j)

/-- The whole phase. -/
theorem evacuate_outcome (hp : p.Bookkeeping) (hchosen : Relieved start chosen)
    (hplan : Drafted rule p eligible start chosen es rs ns plan)
    (hc : Candidates start (rs ++ ns) plan openHosts excluded) :
    ∃ ns' es', Drafted rule p eligible start chosen es' rs ns'
      (evacuate search.findMax fit rule.lower p eligible excluded openHosts es plan) := by
  fun_induction evacuate search.findMax fit rule.lower p eligible excluded openHosts es plan
    generalizing ns with
  | case1 => exact ⟨ns, _, hplan⟩
  | case2 excluded openHosts es plan source hnext barred remaining hnone =>
    rename_i ih
    exact ih hplan (hc.pass source.id)
  | case3 excluded openHosts es plan source hnext barred remaining moves es' hsome =>
    rename_i ih
    obtain ⟨hmem, hcond⟩ := List.mem_filter.mp (mem_of_least? hnext)
    rw [Bool.and_eq_true] at hcond
    -- the next source is found by its estimate, which stands at the position of its host
    have halign := (hchosen.aligned.of_sameHosts hchosen.sameHosts).of_sameHosts
      hplan.settled.sameHosts
    obtain ⟨j, hj⟩ := List.mem_iff_getElem?.mp hmem
    have hi : source.id = j := halign j source hj
    obtain ⟨h, hh, hevac⟩ := Option.bind_eq_some_iff.mp hsome
    obtain ⟨ls, rfl, hsettled, hls⟩ := leaving_of_evacuation? hp hh halign hevac
    have hopen := id_mem_of_nextSource? hnext
    refine ih (hplan.evacuate hchosen hc hopen (hi ▸ hj) hcond.2 hh hsettled hls) ?_
    rw [← List.append_assoc]
    exact hc.evacuate

/-! ## Moves away from overloaded hosts -/

/-- Different machines that may leave overloaded hosts. -/
structure FromOverloaded (eligible : IdSet) (start : List (Estimate α)) (rs : List (Vm α × Nat)) :
    Prop where
  distinct : (rs.map (·.1.id)).Nodup
  allowed : ∀ m ∈ rs, eligible.contains m.1.id = true
  free : ∀ m ∈ rs, m.1.migration = .settled
  origin : ∀ m ∈ rs, ∃ i ∈ overloaded start, m.1.host = some i

/-- What a round has planned if it relieves overloaded hosts only: the machines `ms` move, each of
them once. -/
structure Planned (rule : Rule α) (p : Pool α) (eligible : IdSet)
    (start chosen es : List (Estimate α)) (ms : List (Vm α × Nat)) (plan : MigrationPlan) :
    Prop where
  moves : plan.moves = movesOf ms
  settled : Settled p.time ms chosen es
  distinct : (ms.map (·.1.id)).Nodup
  registered : ∀ m ∈ ms, p.vms.find? m.1.id = some m.1
  allowed : ∀ m ∈ ms, eligible.contains m.1.id = true
  free : ∀ m ∈ ms, m.1.migration = .settled
  origin : ∀ m ∈ ms, ∃ s, m.1.host = some s ∧ (s ∈ overloaded start
    ∨ plan.switchOff.contains s = true ∧ ∃ e, start[m.2]? = some e ∧ e.isActive = true)
  target : ∀ m ∈ ms, m.2 ∉ overloaded start ∧ plan.switchOff.contains m.2 = false
  off : ∀ i, plan.switchOff.contains i = true →
    ∃ h e, IsLeft rule p eligible start (ms.map (·.1.id)) i h e

theorem Drafted.planned (hplan : Drafted rule p eligible start chosen es rs ns plan)
    (hrs : FromOverloaded eligible start rs) :
    Planned rule p eligible start chosen es (rs ++ ns) plan := by
  have hids : ((rs ++ ns).map (·.1.id)).Nodup := by
    rw [List.map_append, List.nodup_append]
    refine ⟨hrs.distinct, hplan.distinct, ?_⟩
    rintro k hk _ hk' rfl
    obtain ⟨m, hm, rfl⟩ := List.mem_map.mp hk
    obtain ⟨i, hi, hhost⟩ := hrs.origin m hm
    refine hplan.not_mem_of_host (hplan.registered m (List.mem_append_left ns hm)) hhost ?_ hk'
    -- a host that is overloaded is not to be switched off
    rw [Bool.eq_false_iff]
    intro hoff
    obtain ⟨h, e, hleft⟩ := hplan.off i hoff
    exact hleft.unloaded hi
  constructor
  case moves =>
    rw [hplan.moves, MigrationPlan.moves_insertAll]
    · rfl
    · simpa [MigrationPlan.empty] using hids
  case settled => exact hplan.settled
  case distinct => exact hids
  case registered => exact hplan.registered
  case allowed => exact List.forall_mem_append.mpr ⟨hrs.allowed, hplan.allowed⟩
  case free => exact List.forall_mem_append.mpr ⟨hrs.free, hplan.free⟩
  case origin =>
    refine List.forall_mem_append.mpr ⟨fun m hm => ?_, fun m hm => ?_⟩
    · obtain ⟨i, hi, hhost⟩ := hrs.origin m hm
      exact ⟨i, hhost, .inl hi⟩
    · obtain ⟨s, hs, horigin⟩ := hplan.origin m hm
      exact ⟨s, hs, .inr horigin⟩
  case target => exact hplan.target
  case off =>
    intro i hi
    obtain ⟨h, e, hleft⟩ := hplan.off i hi
    refine ⟨h, e, { hleft with leave := fun v hv => ?_ }⟩
    obtain ⟨heligible, hsettled, hmem⟩ := hleft.leave v hv
    rw [List.map_append]
    exact ⟨heligible, hsettled, List.mem_append_right _ hmem⟩

/-- The machines of a host that is neither overloaded nor to be switched off do not move. -/
theorem Planned.not_mem_of_host (hplan : Planned rule p eligible start chosen es ms plan)
    {v : Vm α} {i : Nat} (hv : p.vms.find? v.id = some v) (hi : v.host = some i)
    (hload : i ∉ overloaded start) (hon : plan.switchOff.contains i = false) :
    v.id ∉ ms.map (·.1.id) := by
  intro hmem
  obtain ⟨m, hm, hid⟩ := List.mem_map.mp hmem
  have hfind := hplan.registered m hm
  rw [hid, hv] at hfind
  obtain ⟨s, hs, horigin⟩ := hplan.origin m hm
  rw [← Option.some.inj hfind, hi] at hs
  obtain rfl := Option.some.inj hs
  rcases horigin with hover | ⟨hoff, -⟩
  · exact hload hover
  · rw [hon] at hoff
    contradiction

end Datacenter.Consolidation
