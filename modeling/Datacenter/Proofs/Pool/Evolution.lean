import Datacenter.Proofs.Pool.Preservation
import Datacenter.Proofs.Processor.Reachable
import Mathlib.Logic.Relation

/-!
# How hosts evolve

Whatever is done to a pool, its hosts change by the few operations on hosts that `Host.Change` lists.
Most operations on pools change every host once at most (`Pool.Changes`); those that do more, a plan
and periodic processing, do it step by step. So every host of a reachable pool has evolved from a
fresh one (`Pool.exists_fresh_of_reachable`), and what is to be known of the hosts of all reachable
pools can be proved change by change. The first such fact is that their processors are reachable
(`Pool.processor_of_reachable`).
-/

namespace Datacenter

variable {α : Type} [Scalar α]

/-! ## One host -/

namespace Host

/-- What can happen to a host. -/
inductive Change : Host α → Host α → Prop where
  /-- The host is added to a pool. -/
  | enter {h : Host α} (id size : Nat) : Change h ({ h with id := id }.withHistory (.empty size))
  /-- The request of a machine is registered. -/
  | grant {h h' : Host α} {vm : Vm α} {requested : List α} :
      h.admit? vm requested = some h' → Change h h'
  /-- A machine becomes resident. -/
  | create {h h' : Host α} {vm : Vm α} {requested : List α} :
      h.create? vm requested = some h' → Change h h'
  /-- A machine is expected or refused. -/
  | expect {h : Host α} (vm : Vm α) (requested : List α) : Change h (h.expect vm requested).2
  /-- A machine is marked as leaving. -/
  | markLeaving {h : Host α} (id : Nat) : Change h (h.markLeaving id)
  /-- A machine is received. -/
  | receive {h : Host α} (id : Nat) : Change h (h.receive id)
  /-- A machine is removed. -/
  | remove {h : Host α} (id : Nat) : Change h (h.remove id)
  /-- What is set aside for a machine is adapted. -/
  | reprovision {h : Host α} (vm : Vm α) : Change h (h.reprovision vm)
  /-- A core fails. -/
  | failCore {h h' : Host α} {i : Nat} : h.failCore i = .ok h' → Change h h'
  /-- The host is switched on or off. -/
  | switch {h : Host α} (on : Bool) : Change h { h with isActive := on }
  /-- The utilization is recorded. -/
  | record {h : Host α} (time : α) : Change h (h.recordUtilization time)

/-- At most one thing happens to a host, whereupon it may be switched off. -/
def ChangesOnce (h h' : Host α) : Prop :=
  ∃ h₁, (h₁ = h ∨ h.Change h₁) ∧ (h' = h₁ ∨ h' = { h₁ with isActive := false })

theorem ChangesOnce.refl (h : Host α) : h.ChangesOnce h :=
  ⟨h, .inl rfl, .inl rfl⟩

theorem Change.once {h h' : Host α} (hchange : h.Change h') : h.ChangesOnce h' :=
  ⟨h', .inr hchange, .inl rfl⟩

/-- What can come of a host. -/
def Evolves : Host α → Host α → Prop :=
  Relation.ReflTransGen Change

theorem Evolves.refl (h : Host α) : h.Evolves h :=
  Relation.ReflTransGen.refl

theorem ChangesOnce.evolves {h h' : Host α} (honce : h.ChangesOnce h') : h.Evolves h' := by
  obtain ⟨h₁, hchange, hoff⟩ := honce
  have hfirst : h.Evolves h₁ := by
    rcases hchange with rfl | hchange
    · exact .refl h₁
    · exact .single hchange
  rcases hoff with rfl | rfl
  · exact hfirst
  · exact hfirst.tail (.switch false)

theorem changesOnce_update (h : Host α) (vm : Vm α) (requested : List α) :
    h.ChangesOnce (h.update vm requested) := by
  unfold update
  cases hgranted : h.admit? vm requested with
  | none => exact .refl h
  | some h' => exact (Change.grant hgranted).once

variable {h h' : Host α}

/-- No change of a host takes its processor out of the reachable ones. -/
theorem Change.processor (hchange : h.Change h') (hp : h.processor.Reachable) :
    h'.processor.Reachable := by
  have hgrant : ∀ {h h' : Host α} {vm : Vm α} {requested : List α},
      h.admit? vm requested = some h' → h.processor.Reachable → h'.processor.Reachable := by
    intro h h' vm requested hgranted hp
    obtain ⟨q, hq, rfl⟩ := Option.map_eq_some_iff.mp hgranted
    exact hp.grant hq
  cases hchange with
  | enter id size => exact hp
  | grant hgranted => exact hgrant hgranted hp
  | create hcreate =>
    obtain ⟨h₁, hgranted, rfl⟩ := Option.map_eq_some_iff.mp hcreate
    have hp₁ := hgrant hgranted hp
    exact hp₁
  | expect vm requested =>
    have hflag : (h.flag vm.id).processor.Reachable := hp.markArriving vm.id
    rw [expect_eq]
    split
    · rename_i h₁ hgranted
      have hp₁ := hgrant hgranted hflag
      exact hp₁
    · exact hflag.release vm.id
  | markLeaving id => exact hp.markLeaving id
  | receive id =>
    unfold Host.receive
    split
    · exact hp.unmarkArriving id
    · exact hp
  | remove id => exact hp.release id
  | reprovision vm =>
    unfold Host.reprovision
    split <;> exact hp
  | failCore hfail =>
    obtain ⟨q, hq, hfail⟩ := Fault.bind_eq_ok.mp hfail
    cases hfail
    exact hp.failCore hq
  | switch on => exact hp
  | record time => exact hp

theorem Evolves.processor (hevolves : h.Evolves h') (hp : h.processor.Reachable) :
    h'.processor.Reachable := by
  induction hevolves with
  | refl => exact hp
  | tail _ hchange ih => exact hchange.processor ih

theorem IsFresh.processor (hfresh : h.IsFresh) : h.processor.Reachable := by
  obtain ⟨name, capacities, discipline, overhead, ram, bandwidth, storage, unassigned, fraction⟩ :=
    hfresh
  exact .new capacities discipline overhead unassigned fraction

end Host

/-! ## All hosts -/

/-- An operation that does one thing after the other. -/
def Operation.IsSequence : Operation α → Bool
  | execute _ | updateProcessing => true
  | _ => false

namespace Pool

variable {p q r : Pool α} {b : Bool}

/-- The hosts of `q` are those of `p` at the same positions, each of them changed once at most. -/
def Changes (p q : Pool α) : Prop :=
  ∀ (i : Nat) (h' : Host α), q.hosts[i]? = some h' → ∃ h, p.hosts[i]? = some h ∧ h.ChangesOnce h'

namespace Changes

theorem of_sameHosts (hhosts : q.hosts = p.hosts) : p.Changes q :=
  fun _ h hh => ⟨h, hhosts ▸ hh, .refl h⟩

theorem of_setHost {i : Nat} {h h' : Host α} (hh : p.hosts[i]? = some h) (honce : h.ChangesOnce h')
    (hhosts : q.hosts = p.hosts.set i h') : p.Changes q := by
  intro j h₁ hh₁
  rw [hhosts, getElem?_setHost hh] at hh₁
  split at hh₁
  · rename_i hj
    cases hh₁
    exact ⟨h, hj ▸ hh, honce⟩
  · exact ⟨h₁, hh₁, .refl h₁⟩

theorem of_modifyHost {i : Nat} {f : Host α → Host α}
    (honce : ∀ h, p.hosts[i]? = some h → h.ChangesOnce (f h))
    (hhosts : q.hosts = (p.modifyHost i f).hosts) : p.Changes q := by
  intro j h₁ hh₁
  rw [hhosts, getElem?_modifyHost] at hh₁
  split at hh₁
  · rename_i hj
    obtain ⟨h, hh, rfl⟩ := Option.map_eq_some_iff.mp hh₁
    exact ⟨h, hh, honce h (hj ▸ hh)⟩
  · exact ⟨h₁, hh₁, .refl h₁⟩

/-- A host that is looked at after a change of its own may be switched off. -/
theorem switchOffIfPending
    (hpq : ∀ (j : Nat) (h' : Host α), q.hosts[j]? = some h' →
      ∃ h, p.hosts[j]? = some h ∧ (h' = h ∨ h.Change h')) (i : Nat) :
    p.Changes (q.switchOffIfPending i) := by
  intro j h' hh'
  obtain ⟨h₁, hh₁, hoff⟩ := switchOffIfPending_host q i hh'
  obtain ⟨h, hh, hchange⟩ := hpq j h₁ hh₁
  exact ⟨h, hh, h₁, hchange, hoff.imp_right fun hoff => hoff.2.2⟩

theorem create {vm host : Nat} (hq : p.create vm host = .ok (b, q)) : p.Changes q := by
  rcases create_outcome hq with ⟨-, rfl⟩ | ⟨-, v, h, h', -, -, hh, -, hcreate, rfl⟩
  · exact .of_sameHosts rfl
  · exact .of_setHost hh (Host.Change.create hcreate).once rfl

theorem destroy (hp : p.Bookkeeping) (vm : Nat) : p.Changes (p.destroy vm).2 := by
  cases hloc : p.location? vm with
  | none =>
    rw [destroy_of_not_placed hloc]
    exact .of_sameHosts rfl
  | some source =>
    rw [destroy_of_placed hloc]
    refine .switchOffIfPending (fun i h' hh' => ?_) source
    rw [getElem?_vacate (hp.target_ne hloc)] at hh'
    split at hh'
    · obtain ⟨h, hh, rfl⟩ := Option.map_eq_some_iff.mp hh'
      exact ⟨h, hh, .inr (.remove vm)⟩
    · exact ⟨h', hh', .inl rfl⟩

theorem startMigration {vm target : Nat} (hq : p.startMigration vm target = .ok (b, q)) :
    p.Changes q := by
  rcases startMigration_outcome hq with
    ⟨-, rfl⟩ | ⟨v, source, h, h', -, -, -, hne, hh, -, hexpect, hq⟩
  · exact .of_sameHosts rfl
  have honce : h.ChangesOnce h' := by
    have hchange := (Host.Change.expect (h := h) (leaving v) (v.request p.time)).once
    rwa [hexpect] at hchange
  rcases hq with ⟨-, rfl⟩ | ⟨-, rfl⟩
  · exact .of_setHost hh honce rfl
  · intro i h₁ hh₁
    rw [getElem?_depart hh hne] at hh₁
    split at hh₁
    · rename_i hi
      cases hh₁
      exact ⟨h, hi ▸ hh, honce⟩
    · split at hh₁
      · obtain ⟨h₂, hh₂, rfl⟩ := Option.map_eq_some_iff.mp hh₁
        exact ⟨h₂, hh₂, (Host.Change.markLeaving vm).once⟩
      · exact ⟨h₁, hh₁, .refl h₁⟩

theorem finishMigration (hp : p.Bookkeeping) (vm : Nat) : p.Changes (p.finishMigration vm).2 := by
  cases hmig : p.migrations.find? vm with
  | none =>
    rw [finishMigration_of_none hmig]
    exact .of_sameHosts rfl
  | some t =>
    obtain ⟨-, v, source, hv, hs, hne⟩ := (hp.registered vm).target t hmig
    rw [finishMigration_of_some hmig hv hs]
    refine .switchOffIfPending (fun i h' hh' => ?_) source
    rw [getElem?_arrive hne] at hh'
    split at hh'
    · obtain ⟨h, hh, rfl⟩ := Option.map_eq_some_iff.mp hh'
      exact ⟨h, hh, .inr (.receive vm)⟩
    · split at hh'
      · obtain ⟨h, hh, rfl⟩ := Option.map_eq_some_iff.mp hh'
        exact ⟨h, hh, .inr (.remove vm)⟩
      · exact ⟨h', hh', .inl rfl⟩

theorem scale {vm : Nat} {resource : Resource} {delta : Int}
    (hq : p.scale vm resource delta = .ok (b, q)) : p.Changes q := by
  rcases scale_outcome hq with rfl | ⟨v, host, h, -, -, -, hh, hcase⟩
  · exact .of_sameHosts rfl
  rcases hcase with ⟨count, h', -, hgranted, rfl⟩ | ⟨-, rfl⟩ | ⟨ram, bandwidth, -, -, -, rfl⟩
  · exact .of_setHost hh (Host.Change.grant hgranted).once rfl
  · exact .of_setHost hh (h.changesOnce_update v _) rfl
  · exact .of_setHost hh (Host.Change.reprovision _).once rfl

/-- Every host after an operation was there before it, or it has just been added, and it has changed
once at most, unless the operation is a sequence. -/
theorem perform (hp : p.Bookkeeping) {op : Operation α} (hop : op.IsAdmissible)
    (hsingle : op.IsSequence = false) (hq : p.perform op = .ok q) {i : Nat} {h' : Host α}
    (hh' : q.hosts[i]? = some h') :
    ∃ h, (p.hosts[i]? = some h ∨ p.hosts[i]? = none ∧ h.IsFresh) ∧ h.ChangesOnce h' := by
  have hstep : p.Changes q →
      ∃ h, (p.hosts[i]? = some h ∨ p.hosts[i]? = none ∧ h.IsFresh) ∧ h.ChangesOnce h' := by
    intro hchanges
    obtain ⟨h, hh, honce⟩ := hchanges i h' hh'
    exact ⟨h, .inl hh, honce⟩
  cases op with
  | setTime time =>
    obtain rfl := Except.ok.inj hq
    exact hstep (.of_sameHosts rfl)
  | advance duration =>
    obtain rfl := Except.ok.inj hq
    exact hstep (.of_sameHosts rfl)
  | addHost host =>
    obtain ⟨⟨id, _⟩, hdone, rfl⟩ := Fault.map_eq_ok.mp hq
    obtain ⟨-, rfl⟩ := addHost_outcome hdone
    by_cases hlt : i < p.hosts.length
    · rw [List.getElem?_append_left hlt] at hh'
      exact ⟨h', .inl hh', .refl h'⟩
    · have hge := Nat.not_lt.mp hlt
      rw [List.getElem?_append_right hge, List.getElem?_singleton] at hh'
      split at hh'
      · cases hh'
        exact ⟨host, .inr ⟨List.getElem?_eq_none hge, hop⟩, (Host.Change.enter _ _).once⟩
      · contradiction
  | addVm vm =>
    obtain ⟨⟨b, _⟩, hdone, rfl⟩ := Fault.map_eq_ok.mp hq
    rcases addVm_outcome hdone with ⟨-, rfl⟩ | ⟨-, -, rfl⟩
    · exact hstep (.of_sameHosts rfl)
    · exact hstep (.of_sameHosts rfl)
  | create vm host =>
    obtain ⟨⟨b, _⟩, hdone, rfl⟩ := Fault.map_eq_ok.mp hq
    exact hstep (.create hdone)
  | destroy vm =>
    obtain rfl := Except.ok.inj hq
    exact hstep (.destroy hp vm)
  | startMigration vm target =>
    obtain ⟨⟨b, _⟩, hdone, rfl⟩ := Fault.map_eq_ok.mp hq
    exact hstep (.startMigration hdone)
  | finishMigration vm =>
    obtain rfl := Except.ok.inj hq
    exact hstep (.finishMigration hp vm)
  | execute plan => contradiction
  | scale vm resource delta =>
    obtain ⟨⟨b, _⟩, hdone, rfl⟩ := Fault.map_eq_ok.mp hq
    exact hstep (.scale hdone)
  | setHostActive host on =>
    obtain ⟨⟨b, _⟩, hdone, rfl⟩ := Fault.map_eq_ok.mp hq
    rcases setHostActive_outcome hdone with ⟨-, rfl⟩ | ⟨-, h, -, -, hhosts, -⟩
    · exact hstep (.of_sameHosts rfl)
    · exact hstep (.of_modifyHost (fun _ _ => (Host.Change.switch on).once) hhosts)
  | failCore host core =>
    obtain ⟨h, h₁, hh, hfail, rfl⟩ := failCore_outcome hq
    refine hstep (.of_modifyHost (fun h₂ hh₂ => ?_) rfl)
    obtain rfl := Option.some.inj (hh.symm.trans hh₂)
    exact (Host.Change.failCore hfail).once
  | updateProcessing => contradiction

end Changes

/-- The hosts of `q` have evolved from the hosts of `p` at the same positions. -/
def Evolves (p q : Pool α) : Prop :=
  ∀ (i : Nat) (h' : Host α), q.hosts[i]? = some h' → ∃ h, p.hosts[i]? = some h ∧ h.Evolves h'

theorem Changes.evolves (hchanges : p.Changes q) : p.Evolves q := by
  intro i h' hh'
  obtain ⟨h, hh, honce⟩ := hchanges i h' hh'
  exact ⟨h, hh, honce.evolves⟩

namespace Evolves

theorem refl (p : Pool α) : p.Evolves p :=
  fun _ h hh => ⟨h, hh, .refl h⟩

theorem trans (hpq : p.Evolves q) (hqr : q.Evolves r) : p.Evolves r := by
  intro i h'' hh''
  obtain ⟨h', hh', hevolves'⟩ := hqr i h'' hh''
  obtain ⟨h, hh, hevolves⟩ := hpq i h' hh'
  exact ⟨h, hh, Relation.ReflTransGen.trans hevolves hevolves'⟩

theorem execute {plan : MigrationPlan} {count : Nat} (hq : p.execute plan = .ok (count, q)) :
    p.Evolves q := by
  obtain ⟨kept, r, hstart, hmark⟩ := execute_outcome hq
  have hr : p.Evolves r :=
    startAll_induction hstart (fun hstart hp => hp.trans (Changes.startMigration hstart).evolves)
      (.refl p)
  refine markAllOff_induction hmark (fun {q i h} _ hq => ?_) hr
  have hmarked : q.Changes ({ q with pendingOff := q.pendingOff.add i }.switchOffIfPending i) :=
    .switchOffIfPending (fun _ h hh => ⟨h, hh, .inl rfl⟩) i
  exact hq.trans hmarked.evolves

theorem updateProcessing (p : Pool α) : p.Evolves p.updateProcessing := by
  have hrefresh : p.Evolves (p.refreshAll p.vms.values) := by
    refine refreshAll_induction _ (fun {q} v host hq => hq.trans ?_) (.refl p)
    have hupdate : q.Changes (q.modifyHost host (·.update v (v.request q.time))) :=
      .of_modifyHost (fun h _ => h.changesOnce_update v _) rfl
    exact hupdate.evolves
  refine hrefresh.trans fun i h' hh' => ?_
  rw [Pool.updateProcessing, recordAll, List.getElem?_map] at hh'
  obtain ⟨h, hh, rfl⟩ := Option.map_eq_some_iff.mp hh'
  exact ⟨h, hh, .single (.record _)⟩

/-- Every host after an operation has evolved from one before it, unless it has just been added. -/
theorem perform (hp : p.Bookkeeping) {op : Operation α} (hop : op.IsAdmissible)
    (hq : p.perform op = .ok q) {i : Nat} {h' : Host α} (hh' : q.hosts[i]? = some h') :
    ∃ h, (p.hosts[i]? = some h ∨ h.IsFresh) ∧ h.Evolves h' := by
  have hsequence : p.Evolves q → ∃ h, (p.hosts[i]? = some h ∨ h.IsFresh) ∧ h.Evolves h' := by
    intro hevolves
    obtain ⟨h, hh, hevolves⟩ := hevolves i h' hh'
    exact ⟨h, .inl hh, hevolves⟩
  cases hsingle : op.IsSequence with
  | false =>
    obtain ⟨h, hh, honce⟩ := Changes.perform hp hop hsingle hq hh'
    exact ⟨h, hh.imp_right And.right, honce.evolves⟩
  | true =>
    cases op with
    | execute plan =>
      obtain ⟨⟨count, _⟩, hdone, rfl⟩ := Fault.map_eq_ok.mp hq
      exact hsequence (.execute hdone)
    | updateProcessing =>
      obtain rfl := Except.ok.inj hq
      exact hsequence (.updateProcessing p)
    | _ => contradiction

end Evolves

/-- Every host of a reachable pool has evolved from a fresh one. -/
theorem exists_fresh_of_reachable (hp : p.Reachable) {i : Nat} {h : Host α}
    (hh : p.hosts[i]? = some h) : ∃ h₀ : Host α, h₀.IsFresh ∧ h₀.Evolves h := by
  induction hp generalizing i h with
  | new time size => exact absurd hh (by simp [Pool.new])
  | perform hp hop hq ih =>
    obtain ⟨h₁, hbefore | hfresh, hevolves⟩ :=
      Evolves.perform (bookkeeping_of_reachable hp) hop hq hh
    · obtain ⟨h₀, hfresh, hevolves₀⟩ := ih hbefore
      exact ⟨h₀, hfresh, Relation.ReflTransGen.trans hevolves₀ hevolves⟩
    · exact ⟨h₁, hfresh, hevolves⟩

/-- The processors of a reachable pool are reachable. -/
theorem processor_of_reachable (hp : p.Reachable) {i : Nat} {h : Host α}
    (hh : p.hosts[i]? = some h) : h.processor.Reachable := by
  obtain ⟨h₀, hfresh, hevolves⟩ := exists_fresh_of_reachable hp hh
  exact hevolves.processor hfresh.processor

end Pool

end Datacenter
