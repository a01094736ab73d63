import Datacenter.Proofs.Consolidation.Room
import Datacenter.Proofs.Consolidation.Soundness
import Datacenter.Proofs.Host.Receiving
import Mathlib.Data.List.Induction

/-!
# The turns of a fresh plan

A plan is executed move by move, and what a host has left when it is the turn of a move depends on
the moves before it. `Consolidation.Executing` says how the pool has changed by then if the plan is
*fresh*, that is, made for the very pool it is executed on: only the machines whose turn it has been
have changed, and a host that none of them leaves has received some of those that were to come, and
nothing else.

`Consolidation.Turn` is what is known at the turn of a move, and `exists_turn` leads every move of a
fresh plan to its turn. The machine is where the plan has found it. The target has counted on the
machines that were to come before (`Estimate.Holds`), so it has enough cores, memory, bandwidth and
storage; whether it has the speed is up to its processor.
-/

namespace Datacenter

variable {α : Type} [Scalar α]

namespace Pool

variable {p q : Pool α} {b : Bool}

/-- If the check of the target comes to a verdict, so does the start of a migration. It is granted
exactly to a machine that fits, provided such machines are admitted. -/
theorem exists_startMigration {vm source target : Nat} {v : Vm α} {h : Host α} {verdict : Verdict}
    (hv : p.vms.find? vm = some v) (hs : v.host = some source) (hsettled : v.migration = .settled)
    (hne : source ≠ target) (hh : p.hosts[target]? = some h) (hcheck : h.check v = .ok verdict)
    (hexpect : verdict = .success → (h.expect (leaving v) (v.request p.time)).1 = true) :
    ∃ q, p.startMigration vm target = .ok (decide (verdict = .success), q) := by
  unfold startMigration
  simp only [hv, hs, hh, hcheck, Vm.isMigrating, hsettled, bind, Except.bind]
  by_cases hverdict : verdict = .success
  · obtain ⟨h', hexpected⟩ : ∃ h', h.expect { v with migration := .leaving }
        (Vm.request { v with migration := .leaving } p.time) = (true, h') :=
      ⟨_, Prod.ext (hexpect hverdict) rfl⟩
    -- the operation is simplified by where the machine resides, and the record with it
    simp only [hs] at hexpected
    simp [hverdict, hne, hexpected, pure, Except.pure]
  · simp [hverdict, hne, pure, Except.pure]

/-- One more move is tried. -/
theorem startAll_concat {moves : List (Nat × Nat)} {r : Pool α} {count : Nat} {kept : IdSet}
    {vm target : Nat} (hq : startAll moves p = .ok (count, kept, q))
    (hr : q.startMigration vm target = .ok (b, r)) :
    ∃ count' kept', startAll (moves ++ [(vm, target)]) p = .ok (count', kept', r) := by
  induction moves generalizing p count kept with
  | nil =>
    cases hq
    cases b <;> simp [startAll, hr, bind, Except.bind, pure, Except.pure]
  | cons m moves ih =>
    obtain ⟨b', p₁, count₁, kept₁, hstart, hrest⟩ := startAll_cons hq
    obtain ⟨count', kept', hmore⟩ := ih hrest
    rw [List.cons_append]
    cases b' <;> simp [startAll, hstart, hmore, bind, Except.bind, pure, Except.pure]

end Pool

namespace Consolidation

/-! ## What the moves before have changed -/

/-- `q` comes up when the moves of the machines `ms` have been tried on `p`. -/
structure Executing (p q : Pool α) (ms : List (Vm α × Nat)) : Prop where
  reachable : q.Reachable
  time : q.time = p.time
  vms : ∀ k, k ∉ ms.map (·.1.id) → q.vms.find? k = p.vms.find? k
  migrations : ∀ k, k ∉ ms.map (·.1.id) → q.migrations.find? k = p.migrations.find? k
  host : ∀ (i : Nat) (h : Host α), p.hosts[i]? = some h → (∀ m ∈ ms, m.1.host ≠ some i) →
    ∃ vs h', q.hosts[i]? = some h' ∧ vs.Sublist (arrivals ms i) ∧ h.Received p.time vs h'

namespace Executing

variable {p q r : Pool α} {ms : List (Vm α × Nat)} {b : Bool}

theorem refl (hp : p.Reachable) : Executing p p [] where
  reachable := hp
  time := rfl
  vms _ _ := rfl
  migrations _ _ := rfl
  host _ h hh _ := ⟨[], h, hh, .slnil, .nil⟩

/-- A move that is dropped changes nothing. -/
theorem drop (hq : Executing p q ms) (m : Vm α × Nat) : Executing p q (ms ++ [m]) where
  reachable := hq.reachable
  time := hq.time
  vms k hk := hq.vms k fun hmem => hk (by rw [List.map_append]; exact List.mem_append_left _ hmem)
  migrations k hk :=
    hq.migrations k fun hmem => hk (by rw [List.map_append]; exact List.mem_append_left _ hmem)
  host i h hh hi := by
    obtain ⟨vs, h', hh', hsub, hr⟩ := hq.host i h hh fun m hm => hi m (List.mem_append_left _ hm)
    refine ⟨vs, h', hh', ?_, hr⟩
    rw [arrivals_append]
    exact hsub.trans (List.sublist_append_left ..)

/-- One more move is tried. -/
theorem start [LawfulScalar α] (hq : Executing p q ms) {v : Vm α} {t : Nat}
    (hv : q.vms.find? v.id = some v) (hspeed : 0 ≤ v.speed)
    (hr : q.startMigration v.id t = .ok (b, r)) : Executing p r (ms ++ [(v, t)]) := by
  have hbook := Pool.bookkeeping_of_reachable hq.reachable
  have hperform : q.perform (.startMigration v.id t) = .ok r := by
    rw [Pool.perform, hr]
    rfl
  have hreach : r.Reachable := by
    apply hq.reachable.perform _ hperform
    trivial
  rcases Pool.startMigration_outcome hr with
    ⟨-, rfl⟩ | ⟨v', source, h, h', hv', hs, hsettled, hne, hh, hcheck, hexpect, hcase⟩
  · exact hq.drop (v, t)
  obtain rfl := Option.some.inj (hv.symm.trans hv')
  have hadmitted := Host.expect_of_check hcheck hspeed q.time
  rw [hexpect] at hadmitted
  obtain rfl : b = true := hadmitted
  obtain ⟨hfalse, -⟩ | ⟨-, rfl⟩ := hcase
  · contradiction
  -- the target has nothing on file of a machine that resides elsewhere and is settled
  have hblank : h.entry v.id = .blank := by
    refine hbook.entry_eq_blank hh ?_ ?_
    · rw [Pool.location?, hv, Option.bind_some, hs]
      simpa using hne
    · rw [(hbook.settled_iff hv).mp hsettled]
      exact (Option.some_ne_none t).symm
  have hnew : ∀ k, k ∉ (ms ++ [(v, t)]).map (·.1.id) → k ∉ ms.map (·.1.id) ∧ k ≠ v.id := by
    intro k hk
    rw [List.map_append, List.mem_append, not_or] at hk
    exact ⟨hk.1, by simpa using hk.2⟩
  constructor
  case reachable => exact hreach
  case time => exact hq.time
  case vms =>
    intro k hk
    rw [Pool.depart, IdMap.find?_insert, if_neg (hnew k hk).2]
    exact hq.vms k (hnew k hk).1
  case migrations =>
    intro k hk
    rw [Pool.depart, IdMap.find?_insert, if_neg (hnew k hk).2]
    exact hq.migrations k (hnew k hk).1
  case host =>
    intro i h₀ hh₀ hi
    obtain ⟨vs, h₁, hh₁, hsub, hreceived⟩ :=
      hq.host i h₀ hh₀ fun m hm => hi m (List.mem_append_left _ hm)
    have hsource : i ≠ source := by
      rintro rfl
      exact hi (v, t) (List.mem_append_right _ (List.mem_singleton_self _)) hs
    rw [Pool.getElem?_depart hh hne, if_neg hsource, arrivals_append, arrivals_cons]
    by_cases htarget : i = t
    · subst htarget
      obtain rfl := Option.some.inj (hh.symm.trans hh₁)
      rw [if_pos rfl, if_pos rfl]
      exact ⟨vs ++ [v], h', rfl, hsub.append (.refl _),
        .snoc hreceived hblank hcheck (hq.time ▸ hexpect)⟩
    · rw [if_neg htarget, if_neg (Ne.symm htarget)]
      exact ⟨vs, h₁, hh₁, hsub.trans (List.sublist_append_left ..), hreceived⟩

end Executing

/-! ## The turn of a move -/

/-- What is known when it is the turn of machine `v` to go to host `t`, after the moves of the
machines `ms` have been tried. The target was `h₀` when the plan was made, with the estimate `e`;
it is `h` now, after it has received the machines `vs`. -/
structure Turn (p q : Pool α) (ms : List (Vm α × Nat)) (v : Vm α) (t : Nat) (h₀ h : Host α)
    (vs : List (Vm α)) (e : Estimate α) : Prop where
  executing : Executing p q ms
  registered : ∀ m ∈ ms ++ [(v, t)], p.vms.find? m.1.id = some m.1
  found : q.vms.find? v.id = some v
  settled : v.migration = .settled ∧ q.migrations.find? v.id = none
  source : ∃ s, v.host = some s ∧ s ≠ t
  before : p.hosts[t]? = some h₀
  now : q.hosts[t]? = some h
  received : h₀.Received p.time vs h
  arrived : vs.Sublist (arrivals ms t)
  measures : e.Measures h₀
  counted : ∃ es es', es[t]? = some e ∧ Settled p.time (ms ++ [(v, t)]) es es'

namespace Turn

variable {p q : Pool α} {ms : List (Vm α × Nat)} {v : Vm α} {t : Nat} {h₀ h : Host α}
  {vs : List (Vm α)} {e : Estimate α}

/-- What is known of an estimate that has accepted one machine after the other is known here of the
machines that were to come before and the one whose turn it is. -/
theorem of_accepted (hturn : Turn p q ms v t h₀ h vs e) {motive : Estimate α → List (Vm α) → Prop}
    (hnil : ∀ e, motive e []) (hcons : ∀ e v vs, e.canAccept v (v.loadAt p.time) = true →
      motive (e.add v (v.loadAt p.time)) vs → motive e (v :: vs)) :
    motive e (arrivals ms t ++ [v]) := by
  obtain ⟨es, es', he, hsettled⟩ := hturn.counted
  have hall := hsettled.of_accepted hnil hcons he
  rwa [arrivals_append, arrivals_cons, if_pos rfl] at hall

theorem holds (hturn : Turn p q ms v t h₀ h vs e) : e.Holds (arrivals ms t ++ [v]) :=
  hturn.of_accepted .nil fun _ _ _ haccept hvs => .cons haccept hvs

/-- Of every whole-unit resource there is enough left. -/
theorem left (hturn : Turn p q ms v t h₀ h vs e) {total n : Nat} {part : Provision → Nat}
    (hrange : total ≤ maxQuantity) (hbefore : h₀.left total part = .ok n)
    (hholds : ((arrivals ms t ++ [v]).map fun v => part (.of v)).sum ≤ n) :
    ∃ n', h.left total part = .ok n' ∧ part (.of v) ≤ n' := by
  obtain ⟨husedRange, rfl⟩ := Host.left_eq_ok.mp hbefore
  have hused := hturn.received.used_eq part
  have hcame : (vs.map fun v => part (.of v)).sum
      ≤ ((arrivals ms t).map fun v => part (.of v)).sum :=
    (hturn.arrived.map _).sum_le_sum fun _ _ => Nat.zero_le _
  rw [List.map_append, List.sum_append_nat, List.map_singleton, List.sum_singleton] at hholds
  refine ⟨total - h.used part, Host.left_eq_ok.mpr ⟨?_, rfl⟩, ?_⟩ <;> omega

/-- The check of the target comes to a verdict, and only the speed is in question. -/
theorem check [Std.Irrefl (α := α) (· < ·)] (hturn : Turn p q ms v t h₀ h vs e)
    (hrange : h₀.InRange) :
    h.check v = .ok (if h.processor.isSuitable v then .success else .notEnoughSpeed) := by
  have hsame := hturn.received.unchanged
  have hholds := hturn.holds
  have hcores : v.vcpus ≤ h.processor.workingCount := by
    rw [Processor.workingCount_congr hturn.received.makeup, ← hturn.measures.working]
    exact hholds.working v (by simp)
  obtain ⟨ram, hram, hramEnough⟩ := hturn.left hrange.ram hturn.measures.ram hholds.ram
  obtain ⟨bandwidth, hbandwidth, hbandwidthEnough⟩ :=
    hturn.left hrange.bandwidth hturn.measures.bandwidth hholds.bandwidth
  obtain ⟨storage, hstorage, hstorageEnough⟩ :=
    hturn.left hrange.storage hturn.measures.storage hholds.storage
  rw [← hsame.ram] at hram
  rw [← hsame.bandwidth] at hbandwidth
  rw [← hsame.storage] at hstorage
  exact Host.check_eq hcores hram hbandwidth hstorage hramEnough hbandwidthEnough hstorageEnough

/-- The migration is started exactly if the processor of the target finds the machine suitable. -/
theorem exists_start [LawfulScalar α] (hturn : Turn p q ms v t h₀ h vs e) (hrange : h₀.InRange)
    (hspeed : 0 ≤ v.speed) :
    ∃ r, q.startMigration v.id t = .ok (h.processor.isSuitable v, r) := by
  obtain ⟨s, hs, hne⟩ := hturn.source
  have hcheck := hturn.check hrange
  obtain ⟨r, hr⟩ := Pool.exists_startMigration hturn.found hs hturn.settled.1 hne hturn.now hcheck
    fun hsuccess => Host.expect_of_check (hsuccess ▸ hcheck) hspeed q.time
  refine ⟨r, ?_⟩
  rw [hr]
  cases h.processor.isSuitable v <;> rfl

/-- If the processor of the target finds the machine suitable, the migration is started. -/
theorem exists_granted [LawfulScalar α] (hturn : Turn p q ms v t h₀ h vs e) (hrange : h₀.InRange)
    (hspeed : 0 ≤ v.speed) (hsuitable : h.processor.isSuitable v = true) :
    h.check v = .ok .success ∧ ∃ r, q.startMigration v.id t = .ok (true, r) := by
  have hcheck := hturn.check hrange
  have hstart := hturn.exists_start hrange hspeed
  rw [hsuitable] at hcheck hstart
  exact ⟨hcheck, hstart⟩

end Turn

/-! ## Every move has its turn -/

section

variable {rule : Rule α} {p q : Pool α} {eligible : List Nat}
  {start chosen es : List (Estimate α)} {ms earlier later : List (Vm α × Nat)}
  {plan : MigrationPlan} {v : Vm α} {t : Nat}

theorem Planned.turn (hplan : Planned rule p (.ofList eligible) start chosen es ms plan)
    (hp : p.Bookkeeping) (hstart : estimatesOf rule p = .ok start)
    (hchosen : Relieved start chosen) (hq : Executing p q earlier)
    (hms : ms = earlier ++ (v, t) :: later) :
    ∃ h₀ h vs e, start[t]? = some e ∧ Turn p q earlier v t h₀ h vs e := by
  have hm : (v, t) ∈ ms := by simp [hms]
  have hearlier : ∀ m ∈ earlier, m ∈ ms := fun m hm => by simp [hms, hm]
  have hnew : v.id ∉ earlier.map (·.1.id) := by
    have hdistinct := hplan.distinct
    rw [hms, List.map_append, List.nodup_append] at hdistinct
    exact fun hmem => hdistinct.2.2 _ hmem v.id (by simp) rfl
  have hlocation : ∀ m ∈ ms, m.1.host ≠ some t := by
    intro m hm'
    have hne := hplan.apart hm' hm
    rwa [Pool.location?, hplan.registered m hm'] at hne
  -- the target is not overloaded, so its estimate is the one from the start
  obtain ⟨e, he⟩ := hplan.settled.exists_of_mem hm
  have he₀ : start[t]? = some e := by rw [← hchosen.elsewhere t (hplan.target _ hm).1, he]
  obtain ⟨h₀, hh₀, -⟩ := exists_host hstart he₀
  obtain ⟨vs, h, hh, harrived, hreceived⟩ :=
    hq.host t h₀ hh₀ fun m hm => hlocation m (hearlier m hm)
  refine ⟨h₀, h, vs, e, he₀, ?_⟩
  constructor
  case executing => exact hq
  case registered =>
    rw [List.forall_mem_append]
    exact ⟨fun m hm => hplan.registered m (hearlier m hm),
      List.forall_mem_singleton.mpr (hplan.registered _ hm)⟩
  case found => rw [hq.vms _ hnew, hplan.registered _ hm]
  case settled =>
    have hsettled := hplan.free _ hm
    rw [hq.migrations _ hnew]
    exact ⟨hsettled, (hp.settled_iff (hplan.registered _ hm)).mp hsettled⟩
  case source =>
    obtain ⟨s, hs, -⟩ := hplan.origin _ hm
    exact ⟨s, hs, fun heq => hlocation _ hm (heq ▸ hs)⟩
  case before => exact hh₀
  case now => exact hh
  case received => exact hreceived
  case arrived => exact harrived
  case measures => exact (measures_of_getElem? hstart hh₀ he₀).1
  case counted =>
    have hsettled := hplan.settled
    rw [hms, List.append_cons] at hsettled
    obtain ⟨es₁, hes₁⟩ := hsettled.of_append
    exact ⟨chosen, es₁, he, hes₁⟩

variable [LawfulScalar α]

/-- The moves of a fresh plan can be tried one after the other. -/
theorem Planned.exists_executing
    (hplan : Planned rule p (.ofList eligible) start chosen es ms plan)
    (hp : p.Reachable) (hstart : estimatesOf rule p = .ok start)
    (hchosen : Relieved start chosen) (hrange : ∀ h ∈ p.hosts, h.InRange)
    (hspeed : ∀ v ∈ p.vms.values, 0 ≤ v.speed) (hms : ms = earlier ++ later) :
    ∃ count kept q, Pool.startAll (movesOf earlier) p = .ok (count, kept, q)
      ∧ Executing p q earlier := by
  induction earlier using List.reverseRecOn generalizing later with
  | nil => exact ⟨0, ∅, p, rfl, .refl hp⟩
  | append_singleton earlier m ih =>
    obtain ⟨v, t⟩ := m
    rw [List.append_assoc] at hms
    obtain ⟨count, kept, q, hq, hexecuting⟩ := ih hms
    obtain ⟨h₀, h, vs, e, -, hturn⟩ :=
      hplan.turn (Pool.bookkeeping_of_reachable hp) hstart hchosen hexecuting hms
    have hfind := hplan.registered (v, t) (by simp [hms])
    have hspeed := hspeed v (IdMap.mem_values_iff.mpr ⟨v.id, hfind⟩)
    obtain ⟨r, hr⟩ := hturn.exists_start (hrange h₀ (List.mem_of_getElem? hturn.before)) hspeed
    obtain ⟨count', kept', hmore⟩ := Pool.startAll_concat hq hr
    rw [movesOf_append]
    exact ⟨count', kept', r, hmore, hexecuting.start hturn.found hspeed hr⟩

/-- Every move of a fresh plan has its turn. -/
theorem exists_turn {σ : Type} {choose : Selector σ α} {s s' : σ} {before after : List (Nat × Nat)}
    {k : Nat} (hp : p.Reachable) (hrange : ∀ h ∈ p.hosts, h.InRange)
    (hspeed : ∀ v ∈ p.vms.values, 0 ≤ v.speed)
    (hplan : Consolidation.plan rule choose s p eligible = .ok (plan, s'))
    (hmoves : plan.moves = before ++ (k, t) :: after) :
    ∃ count kept q earlier v h₀ h vs e, v.id = k
      ∧ Pool.startAll before p = .ok (count, kept, q) ∧ Turn p q earlier v t h₀ h vs e
      ∧ p.vms.find? k = some v ∧ rule.upper.of h₀ = .ok e.threshold := by
  have hbook := Pool.bookkeeping_of_reachable hp
  obtain ⟨start, chosen, es, ms, hstart, hchosen, hplanned⟩ := plan_outcome hbook hplan
  have hmap : movesOf ms = before ++ (k, t) :: after := by rw [← hplanned.moves, hmoves]
  obtain ⟨earlier, rest, rfl, rfl, hrest⟩ := List.map_eq_append_iff.mp hmap
  obtain ⟨⟨v, t⟩, later, rfl, hm, -⟩ := List.map_eq_cons_iff.mp hrest
  cases hm
  obtain ⟨count, kept, q, hq, hexecuting⟩ :=
    hplanned.exists_executing hp hstart hchosen hrange hspeed rfl
  obtain ⟨h₀, h, vs, e, he, hturn⟩ := hplanned.turn hbook hstart hchosen hexecuting rfl
  have hthreshold := (measures_of_getElem? hstart hturn.before he).2
  exact ⟨count, kept, q, earlier, v, h₀, h, vs, e, rfl, hq, hturn,
    hplanned.registered (v, t) (by simp), hthreshold⟩

end

end Consolidation

end Datacenter
