import Datacenter.Proofs.Binary64.Rounding
import Datacenter.Proofs.Consolidation.Round
import Datacenter.Proofs.Selection.Choosing

/-!
# Relieving overloaded hosts

A relief goes through the overloaded hosts and lets a selector choose machines from each of them,
until the estimate of the host is no longer above its threshold or the selector finds none
(`Consolidation.reliefStep?`). The selector is offered the machines that may leave the host, except
all that have been selected by then, on this host or on another one, and it is to choose one of them
(`Selector.IsSound`).

If it does, as every selection policy does (`SelectionPolicy.isSound_select`), the loop comes to an
end, with what `Consolidation.select` computes. So a round plans what `Consolidation.plan` computes
(`plans_iff`). The loop never takes a machine twice and never one too many: a machine is taken only
if the estimate, which is the load of the host less the requests of the machines taken before, is
still above the threshold (`Consolidation.relief_selects_just_enough`).

## Shape of the proof

Each host is relieved by itself. Machines that may leave different hosts are different, so what has
been selected elsewhere does not matter to what is offered (`Elsewhere.offered`), and a step takes a
machine off what is offered (`unselected_concat`). So the steps on one host do what `relieve` does
there (`reliefRun_of_relieve`), and by induction on the hosts the loop does what `select` does
(`reliefRun_of_select`). There is only one way on at every step, so there is no other end.
-/

namespace Datacenter

variable {α σ : Type} [Scalar α]

/-! ## Estimates without machines -/

namespace Estimate

/-- The estimate once machines have left, one after the other. -/
def without (e : Estimate α) (processor : Processor α) (vms : List (Vm α)) : Estimate α :=
  vms.foldl (fun e v => e.remove v processor) e

/-- What is left of the load is the load less what the machines ask for. -/
theorem load_without (e : Estimate α) (processor : Processor α) (vms : List (Vm α)) :
    (e.without processor vms).load
      = vms.foldl (fun load v => load - processor.ledger.totalOf v.id) e.load := by
  induction vms generalizing e with
  | nil => rfl
  | cons v vms ih => exact ih (e.remove v processor)

end Estimate

/-- The selector chooses one of the machines it is offered, or none. That is what it is asked to do;
nothing checks it. -/
def Selector.IsSound (choose : Selector σ α) : Prop :=
  ∀ (s : σ) (vms : List (Vm α)) (time : α) (k : Nat), (choose s vms time).1 = some k →
    ∃ v ∈ vms, v.id = k

theorem SelectionPolicy.isSound_selectBy
    {choose : Generator → List (Vm α) → Option (Vm α) × Generator}
    (hchoose : Generator.IsChoice choose) : Selector.IsSound (SelectionPolicy.selectBy choose) :=
  fun _ _ _ _ => mem_of_selectBy hchoose

theorem SelectionPolicy.isSound_select :
    Selector.IsSound (SelectionPolicy.select : Selector SelectionPolicy α) :=
  isSound_selectBy Generator.isChoice_choose

namespace Consolidation

variable {choose : Selector σ α} {p : Pool α} {eligible : IdSet} {h : Host α} {e : Estimate α}
  {i : Nat} {rest sources : List Nat} {r r' : Progress σ α} {v : Vm α} {s s' : σ}
  {selected more candidates : List (Vm α)} {es es' : List (Estimate α)} {choice : Choice σ α}

/-! ## What is offered -/

omit [Scalar α] in
theorem unselected_concat (selected vms : List (Vm α)) (v : Vm α) :
    unselected (selected ++ [v]) vms = others v.id (unselected selected vms) := by
  rw [unselected, others, unselected, List.filter_filter]
  refine List.filter_congr fun w _ => ?_
  rw [List.any_append, List.any_cons, List.any_nil, Bool.or_false, Bool.not_or, Bool.and_comm,
    bne_comm]
  rfl

/-- The machines may leave hosts that are not among the given ones. -/
def Elsewhere (p : Pool α) (eligible : IdSet) (hosts : List Nat) (vms : List (Vm α)) : Prop :=
  ∀ v ∈ vms, ∃ j, j ∉ hosts ∧ ∃ h, p.hosts[j]? = some h ∧ v ∈ candidatesOn p eligible h

omit [Scalar α] in
theorem Elsewhere.nil (p : Pool α) (eligible : IdSet) (hosts : List Nat) :
    Elsewhere p eligible hosts [] :=
  fun _ hv => (nomatch hv)

omit [Scalar α] in
/-- Once a host has been relieved, what has been selected there is elsewhere. -/
theorem Elsewhere.append (hselected : Elsewhere p eligible (i :: rest) selected) (hi : i ∉ rest)
    (hh : p.hosts[i]? = some h) (hmore : ∀ v ∈ more, v ∈ candidatesOn p eligible h) :
    Elsewhere p eligible rest (selected ++ more) := by
  intro v hv
  rcases List.mem_append.mp hv with hv | hv
  · obtain ⟨j, hj, hv⟩ := hselected v hv
    exact ⟨j, fun hmem => hj (List.mem_cons_of_mem i hmem), hv⟩
  · exact ⟨i, hi, h, hh, hmore v hv⟩

/-- What has been selected elsewhere does not matter to what is offered. -/
theorem Elsewhere.offered (hselected : Elsewhere p eligible (i :: rest) selected)
    (hp : p.Bookkeeping) (hh : p.hosts[i]? = some h) :
    offered p eligible h selected = candidatesOn p eligible h := by
  refine List.filter_eq_self.mpr fun v hv => ?_
  rw [Bool.not_eq_true', List.any_eq_false]
  intro w hw
  obtain ⟨j, hj, h', hh', hw⟩ := hselected w hw
  have hne : j ≠ i := fun hji => hj (hji ▸ List.mem_cons_self)
  simpa using id_ne_of_candidatesOn hp hh' hh hne hw hv

/-! ## One host -/

/-- Machines are chosen only as long as the estimate is above the threshold. -/
theorem relieve_needed {time : α} {processor : Processor α}
    (hchoice : relieve choose time processor s e candidates = choice) :
    choice.estimate = e.without processor choice.selected
      ∧ ∀ n < choice.selected.length,
        (e.without processor (choice.selected.take n)).isOverloaded = true := by
  subst hchoice
  fun_induction relieve choose time processor s e candidates with
  | case1 s e candidates hload chosen s' hanswer hnone =>
    exact ⟨rfl, fun n hn => absurd hn (Nat.not_lt_zero n)⟩
  | case2 s e candidates hload chosen s' hanswer v hfind rest ih =>
    refine ⟨ih.1, fun n hn => ?_⟩
    cases n with
    | zero => exact hload
    | succ n => exact ih.2 n (Nat.lt_of_succ_lt_succ hn)
  | case3 s e candidates hload => exact ⟨rfl, fun n hn => absurd hn (Nat.not_lt_zero n)⟩

/-- The last step on a host comes next: its estimate is not above the threshold any more, or the
selector chooses none of its machines. -/
structure IsLastStep (choose : Selector σ α) (p : Pool α) (eligible : IdSet) (i : Nat) (h : Host α)
    (e : Estimate α) (r : Progress σ α) : Prop where
  host : r.hosts.head? = some i
  estimate : r.estimates[i]? = some e
  enough : e.isOverloaded = false
    ∨ ∃ s, choose r.state (offered p eligible h r.selected) p.time = (none, s)

/-- The steps on a host choose what `relieve` chooses. -/
theorem reliefRun_of_relieve (hp : p.Bookkeeping) (hchoose : Selector.IsSound choose)
    (rest : List Nat) (hh : p.hosts[i]? = some h) (he : es[i]? = some e)
    (hoffered : offered p eligible h selected = candidates)
    (hchoice : relieve choose p.time h.processor s e candidates = choice) :
    ∃ r, ReliefRun choose p eligible ⟨i :: rest, selected, es, s⟩ r
      ∧ IsLastStep choose p eligible i h choice.estimate r
      ∧ reliefStep? choose p eligible r
        = some ⟨rest, selected ++ choice.selected, es.set i choice.estimate, choice.state⟩ := by
  have hself : es.set i e = es := by
    obtain ⟨hlt, rfl⟩ := List.getElem?_eq_some_iff.mp he
    exact List.set_getElem_self hlt
  subst hchoice
  fun_induction relieve choose p.time h.processor s e candidates generalizing selected es with
  | case1 s e candidates hload chosen s' hanswer hnone =>
    -- the selector is sound, so it has chosen none
    obtain rfl : chosen = none := by
      cases chosen with
      | none => rfl
      | some k =>
        obtain ⟨v, hv, rfl⟩ := hchoose s candidates p.time k (by rw [hanswer])
        simpa using List.find?_eq_none.mp hnone v hv
    rw [← hoffered] at hanswer
    refine ⟨_, .refl, ⟨rfl, he, .inr ⟨s', hanswer⟩⟩, ?_⟩
    rw [hself, List.append_nil]
    exact reliefStep?_exhausted hh he hload hanswer
  | case2 s e candidates hload chosen s' hanswer v hfind rest =>
    rename_i ih
    obtain rfl : chosen = some v.id := by simpa using List.find?_some hfind
    have hv : p.vms.find? v.id = some v := by
      have hmem := List.mem_of_find?_eq_some hfind
      rw [← hoffered] at hmem
      exact (of_mem_candidatesOn hp hh (List.mem_of_mem_filter hmem)).1
    have hset : (es.set i (e.remove v h.processor))[i]? = some (e.remove v h.processor) :=
      List.getElem?_set_self (List.getElem?_eq_some_iff.mp he).1
    have hfewer : offered p eligible h (selected ++ [v]) = others v.id candidates := by
      rw [← hoffered, offered, unselected_concat, offered]
    rw [← hoffered] at hanswer
    obtain ⟨r, hsteps, hlast, hleft⟩ := ih hset hfewer (List.set_set ..)
    refine ⟨r, .head (reliefStep?_chosen hh he hload hanswer hv) hsteps, hlast, ?_⟩
    rw [hleft, List.set_set, List.append_assoc]
    rfl
  | case3 s e candidates hload =>
    rw [Bool.not_eq_true] at hload
    refine ⟨_, .refl, ⟨rfl, he, .inl hload⟩, ?_⟩
    rw [hself, List.append_nil]
    exact reliefStep?_relieved hh he hload

/-- Just enough machines have been selected from a host. All of them may leave it. Each of them is
selected while the estimate without those before is above the threshold, that is, the load of the
host less what they ask for. Without all of them, the loop comes to the last step on the host. -/
structure HostRelieved (choose : Selector σ α) (p : Pool α) (eligible : IdSet)
    (start : Progress σ α) (i : Nat) (h : Host α) (e e' : Estimate α) (chosen : List (Vm α)) :
    Prop where
  allowed : ∀ v ∈ chosen, p.vms.find? v.id = some v ∧ v.host = some i ∧ v.migration = .settled
    ∧ eligible.contains v.id = true
  needed : ∀ n < chosen.length, (e.without h.processor (chosen.take n)).isOverloaded = true
  load : ∀ n, (e.without h.processor (chosen.take n)).load
    = (chosen.take n).foldl (fun load v => load - h.processor.ledger.totalOf v.id) h.load
  estimate : e' = e.without h.processor chosen
  last : ∃ r, ReliefRun choose p eligible start r ∧ IsLastStep choose p eligible i h e' r

/-- Steps before those on a host may be counted in. -/
theorem HostRelieved.of_run {start start' : Progress σ α} {e' : Estimate α}
    (hr : HostRelieved choose p eligible start' i h e e' selected)
    (hsteps : ReliefRun choose p eligible start start') :
    HostRelieved choose p eligible start i h e e' selected := by
  obtain ⟨r, hr', hlast⟩ := hr.last
  exact { hr with last := ⟨r, hsteps.trans hr', hlast⟩ }

/-- The steps on a host that nothing has been selected from relieve it. -/
theorem hostRelieved_of_relieve (hp : p.Bookkeeping) (hchoose : Selector.IsSound choose)
    (hh : p.hosts[i]? = some h) (he : es[i]? = some e) (hload : e.load = h.load)
    (hselected : Elsewhere p eligible (i :: rest) selected)
    (hchoice : relieve choose p.time h.processor s e (candidatesOn p eligible h) = choice) :
    ReliefRun choose p eligible ⟨i :: rest, selected, es, s⟩
        ⟨rest, selected ++ choice.selected, es.set i choice.estimate, choice.state⟩
      ∧ HostRelieved choose p eligible ⟨i :: rest, selected, es, s⟩ i h e choice.estimate
        choice.selected := by
  obtain ⟨r, hsteps, hlast, hleft⟩ :=
    reliefRun_of_relieve hp hchoose rest hh he (hselected.offered hp hh) hchoice
  refine ⟨hsteps.tail hleft, ?_⟩
  obtain ⟨hestimate, hneeded⟩ := relieve_needed hchoice
  constructor
  case allowed =>
    intro v hv
    rw [← hchoice] at hv
    exact of_mem_candidatesOn hp hh ((relieve_outcome ..).1 v hv)
  case needed => exact hneeded
  case load => exact fun n => by rw [Estimate.load_without, hload]
  case estimate => exact hestimate
  case last => exact ⟨r, hsteps, hlast⟩

/-! ## One host after the other -/

omit [Scalar α] in
/-- The machines among the selected ones that reside on a host. -/
def selectedFrom (i : Nat) (selected : List (Vm α)) : List (Vm α) :=
  selected.filter fun v => v.host == some i

omit [Scalar α] in
theorem selectedFrom_append (selected more : List (Vm α)) :
    selectedFrom i (selected ++ more) = selectedFrom i selected ++ selectedFrom i more :=
  List.filter_append ..

omit [Scalar α] in
theorem selectedFrom_of_here (h : ∀ v ∈ selected, v.host = some i) :
    selectedFrom i selected = selected :=
  List.filter_eq_self.mpr fun v hv => beq_iff_eq.mpr (h v hv)

omit [Scalar α] in
theorem selectedFrom_of_elsewhere (h : ∀ v ∈ selected, v.host ≠ some i) :
    selectedFrom i selected = [] :=
  List.filter_eq_nil_iff.mpr fun v hv => mt beq_iff_eq.mp (h v hv)

theorem select_cons (hh : p.hosts[i]? = some h) (he : es[i]? = some e)
    (hselect : select choose p eligible (i :: rest) es s = (selected, es', s')) :
    ∃ choice more, relieve choose p.time h.processor s e (candidatesOn p eligible h) = choice
      ∧ select choose p eligible rest (es.set i choice.estimate) choice.state = (more, es', s')
      ∧ selected = choice.selected ++ more := by
  simp only [select, hh, he, Prod.mk.injEq] at hselect
  obtain ⟨rfl, rfl, rfl⟩ := hselect
  exact ⟨_, _, rfl, rfl, rfl⟩

/-- Machines are selected from the given hosts only. -/
theorem exists_host_of_select (hp : p.Bookkeeping) (hsources : sources.Nodup)
    (hselect : select choose p eligible sources es s = (selected, es', s')) :
    ∀ v ∈ selected, ∃ i ∈ sources, v.host = some i := by
  intro v hv
  obtain ⟨i, hi, h, hh, hv⟩ := (select_outcome hp hsources hselect).1 v hv
  exact ⟨i, hi, (of_mem_candidatesOn hp hh hv).2.1⟩

/-- The steps on all hosts select what `select` selects. -/
theorem reliefRun_of_select (hp : p.Bookkeeping) (hchoose : Selector.IsSound choose)
    (hsources : sources.Nodup)
    (hhosts : ∀ i ∈ sources, ∃ h e, p.hosts[i]? = some h ∧ es[i]? = some e ∧ e.load = h.load)
    (hselected : Elsewhere p eligible sources selected)
    (hselect : select choose p eligible sources es s = (more, es', s')) :
    ReliefRun choose p eligible ⟨sources, selected, es, s⟩ ⟨[], selected ++ more, es', s'⟩
      ∧ ∀ i ∈ sources, ∃ h e e', p.hosts[i]? = some h ∧ es[i]? = some e ∧ es'[i]? = some e'
        ∧ HostRelieved choose p eligible ⟨sources, selected, es, s⟩ i h e e'
          (selectedFrom i more) := by
  induction sources generalizing selected es s more with
  | nil =>
    cases hselect
    rw [List.append_nil]
    exact ⟨.refl, fun _ hi => (nomatch hi)⟩
  | cons i rest ih =>
    obtain ⟨hi, hrest⟩ := List.nodup_cons.mp hsources
    have hne : ∀ j ∈ rest, j ≠ i := fun j hj hji => hi (hji ▸ hj)
    obtain ⟨h, e, hh, he, hload⟩ := hhosts i List.mem_cons_self
    obtain ⟨choice, more, hchoice, hmore, rfl⟩ := select_cons hh he hselect
    -- what is selected here resides here, and what is selected later resides elsewhere
    have hcandidates : ∀ v ∈ choice.selected, v ∈ candidatesOn p eligible h := by
      rw [← hchoice]
      exact (relieve_outcome ..).1
    have hhere : ∀ v ∈ choice.selected, v.host = some i :=
      fun v hv => (of_mem_candidatesOn hp hh (hcandidates v hv)).2.1
    have hthere : ∀ v ∈ more, v.host ≠ some i := by
      intro v hv hvi
      obtain ⟨j, hj, hvj⟩ := exists_host_of_select hp hrest hmore v hv
      exact hne j hj (Option.some.inj (hvj.symm.trans hvi))
    -- the relief of this host leaves the estimates of the others
    obtain ⟨hsteps, hrelieved⟩ := hostRelieved_of_relieve hp hchoose hh he hload hselected hchoice
    have hhosts' : ∀ j ∈ rest, ∃ h' e', p.hosts[j]? = some h'
        ∧ (es.set i choice.estimate)[j]? = some e' ∧ e'.load = h'.load := by
      intro j hj
      rw [List.getElem?_set_ne (hne j hj).symm]
      exact hhosts j (List.mem_cons_of_mem i hj)
    obtain ⟨hend, hothers⟩ := ih hrest hhosts' (hselected.append hi hh hcandidates) hmore
    refine ⟨?_, fun j hj => ?_⟩
    · rw [List.append_assoc] at hend
      exact hsteps.trans hend
    rcases List.mem_cons.mp hj with rfl | hj
    · obtain ⟨-, -, -, hkept⟩ := select_outcome hp hrest hmore
      refine ⟨h, e, choice.estimate, hh, he, ?_, ?_⟩
      · rw [hkept j hi, List.getElem?_set_self (List.getElem?_eq_some_iff.mp he).1]
      · rw [selectedFrom_append, selectedFrom_of_here hhere, selectedFrom_of_elsewhere hthere,
          List.append_nil]
        exact hrelieved
    · obtain ⟨h', e', e'', hh', he', he'', hrelieved'⟩ := hothers j hj
      have hnone : selectedFrom j choice.selected = [] :=
        selectedFrom_of_elsewhere fun v hv hvj =>
          hne j hj (Option.some.inj (hvj.symm.trans (hhere v hv)))
      rw [List.getElem?_set_ne (hne j hj).symm] at he'
      refine ⟨h', e', e'', hh', he', he'', ?_⟩
      rw [selectedFrom_append, hnone, List.nil_append]
      exact hrelieved'.of_run hsteps

/-! ## The relief -/

/-- The relief of the overloaded hosts comes to an end with what `select` computes. -/
theorem reliefRun_of_estimatesOf {rule : Rule α} (hp : p.Bookkeeping)
    (hchoose : Selector.IsSound choose) (hes : estimatesOf rule p = .ok es)
    (hselect : select choose p eligible (overloaded es) es s = (selected, es', s')) :
    ReliefRun choose p eligible ⟨overloaded es, [], es, s⟩ ⟨[], selected, es', s'⟩
      ∧ ∀ i ∈ overloaded es, ∃ h e e', p.hosts[i]? = some h ∧ es[i]? = some e
        ∧ es'[i]? = some e'
        ∧ HostRelieved choose p eligible ⟨overloaded es, [], es, s⟩ i h e e'
          (selectedFrom i selected) := by
  have haligned := aligned_estimatesOf hp hes
  refine reliefRun_of_select hp hchoose (haligned.nodup_map_id _) (fun i hi => ?_)
    (.nil p eligible _) hselect
  obtain ⟨e, he, -⟩ := (haligned.mem_map_id_iff _).mp hi
  obtain ⟨h, hh, hof⟩ := exists_host hes he
  exact ⟨h, e, hh, he, hof.load⟩

/-- If the selector keeps to what it is offered, a round plans what is computed. -/
theorem plans_iff {rule : Rule α} {eligible : List Nat} {plan : MigrationPlan}
    (hp : p.Bookkeeping) (hchoose : Selector.IsSound choose) :
    Plans rule choose s p eligible plan s'
      ↔ Consolidation.plan rule choose s p eligible = .ok (plan, s') := by
  constructor
  · rintro ⟨start, selected, es, hstart, hrun, rfl⟩
    cases hselect : select choose p (.ofList eligible) (overloaded start) start s with
    | mk selected' r =>
      obtain ⟨es', s''⟩ := r
      -- there is one end only
      obtain ⟨hend, -⟩ := reliefRun_of_estimatesOf hp hchoose hstart hselect
      rcases Relation.ReflTransGen.cases_head (hend.to_end hrun) with heq | ⟨_, hnext, -⟩
      · cases heq
        refine Fault.bind_eq_ok.mpr ⟨start, hstart, ?_⟩
        dsimp only
        rw [hselect]
        rfl
      · cases hnext
  · intro hplan
    obtain ⟨start, hstart, hplan⟩ := Fault.bind_eq_ok.mp hplan
    cases hplan
    exact ⟨start, _, _, hstart, (reliefRun_of_estimatesOf hp hchoose hstart rfl).1, rfl⟩

/-- What is computed with a selection policy is what a round plans. -/
theorem plans_of_policy {rule : Rule α} {selection next : SelectionPolicy} {eligible : List Nat}
    {plan : MigrationPlan} (hp : p.Reachable)
    (hplan : Consolidation.plan rule SelectionPolicy.select selection p eligible
      = .ok (plan, next)) :
    Plans rule SelectionPolicy.select selection p eligible plan next :=
  (plans_iff (Pool.bookkeeping_of_reachable hp) SelectionPolicy.isSound_select).mpr hplan

/-- What the relief of the overloaded hosts comes to. All its steps lead to the end, where different
machines of overloaded hosts have been selected, just enough from each host, and the estimates of
the other hosts are as before. -/
structure SelectsJustEnough (choose : Selector σ α) (p : Pool α) (eligible : IdSet)
    (es : List (Estimate α)) (s : σ) (selected : List (Vm α)) (es' : List (Estimate α)) (s' : σ) :
    Prop where
  ended : ∀ r, ReliefRun choose p eligible ⟨overloaded es, [], es, s⟩ r →
    ReliefRun choose p eligible r ⟨[], selected, es', s'⟩
  distinct : (selected.map (·.id)).Nodup
  origin : ∀ v ∈ selected, ∃ i ∈ overloaded es, v.host = some i
  relieved : ∀ i ∈ overloaded es, ∃ h e e', p.hosts[i]? = some h ∧ es[i]? = some e
    ∧ es'[i]? = some e'
    ∧ HostRelieved choose p eligible ⟨overloaded es, [], es, s⟩ i h e e' (selectedFrom i selected)
  kept : ∀ i, i ∉ overloaded es → es'[i]? = es[i]?

/-- The relief of overloaded hosts comes to an end and selects just enough machines. -/
theorem relief_selects_just_enough {rule : Rule α} (hp : p.Reachable)
    (hchoose : Selector.IsSound choose) (hes : estimatesOf rule p = .ok es)
    (hselect : select choose p eligible (overloaded es) es s = (selected, es', s')) :
    SelectsJustEnough choose p eligible es s selected es' s' := by
  have hb := Pool.bookkeeping_of_reachable hp
  have hsources : (overloaded es).Nodup := (aligned_estimatesOf hb hes).nodup_map_id _
  obtain ⟨hend, hrelieved⟩ := reliefRun_of_estimatesOf hb hchoose hes hselect
  obtain ⟨-, hdistinct, -, hkept⟩ := select_outcome hb hsources hselect
  constructor
  case ended => exact fun r hr => hend.to_end hr
  case distinct => exact hdistinct
  case origin => exact exists_host_of_select hb hsources hselect
  case relieved => exact hrelieved
  case kept => exact hkept

/-- A host with two machines is relieved of one. -/
theorem relief_selects_just_enough_sample : ∃ (p : Pool Binary64)
    (es es' : List (Estimate Binary64)) (selected : List (Vm Binary64)) (next : SelectionPolicy),
    (Pool.new 0 5).performAll Pool.sampleRun = .ok p ∧ estimatesOf sampleRule p = .ok es
      ∧ overloaded es = [0] ∧ selected.map (·.id) = [10]
      ∧ SelectsJustEnough SelectionPolicy.select p (.ofList [10, 11, 12, 13, 14]) es
        .minimumUtilization selected es' next := by
  obtain ⟨p, hrun, hp, hcheck⟩ := Pool.exists_of_run (fun p : Pool Binary64 =>
    (estimatesOf sampleRule p).toOption.any fun es =>
      decide (overloaded es = [0])
        && decide ((select SelectionPolicy.select p (.ofList [10, 11, 12, 13, 14])
          (overloaded es) es .minimumUtilization).1.map (·.id) = [10]))
    (Pool.isAdmissible_of_mem_sampleRun (by decide +kernel)) (by decide +kernel)
  simp only [Option.any_eq_true, Bool.and_eq_true, decide_eq_true_eq] at hcheck
  obtain ⟨es, hes, hover, hids⟩ := hcheck
  have hes := Fault.toOption_eq_some.mp hes
  exact ⟨p, es, _, _, _, hrun, hes, hover, hids,
    relief_selects_just_enough hp SelectionPolicy.isSound_select hes rfl⟩

end Consolidation

end Datacenter
