import Datacenter.Proofs.Pool.Refreshing

/-!
# Requests for as many cores as machines have

Every request on file is for as many cores as its machine has (`Pool.countsCores_of_reachable`), also
between two updates: a machine is registered with all of its cores, and when it is given more or
fewer of them, its request is registered again.

An operation carries on the requests that are on file, or it registers machines with all of their
cores (`Host.CarriesOn`); that is all the invariant needs to know of the hosts. What changes the
number of cores of a machine is looked at separately. The machine is settled then, so its only
request is the one on its host.
-/

namespace Datacenter

variable {α : Type} [Scalar α]

/-! ## Hosts -/

/-- Each request of a host is one that was on file before, for as many cores, or it is for as many
cores as its machine has. -/
def Host.CarriesOn (vms : IdMap (Vm α)) (h h' : Host α) : Prop :=
  ∀ k r', (h'.entry k).request = some r' →
    (∃ r, (h.entry k).request = some r ∧ r'.share.length = r.share.length)
      ∨ ∃ v, vms.find? k = some v ∧ r'.share.length = v.vcpus

namespace Host.CarriesOn

variable {vms : IdMap (Vm α)} {h h' h'' : Host α} {v : Vm α} {requested : List α}

omit [Scalar α] in
theorem of_requests (hsame : ∀ k, (h'.entry k).request = (h.entry k).request) :
    CarriesOn vms h h' :=
  fun k r' hr' => .inl ⟨r', hsame k ▸ hr', rfl⟩

omit [Scalar α] in
theorem refl (h : Host α) : CarriesOn vms h h :=
  of_requests fun _ => rfl

omit [Scalar α] in
theorem trans (hh' : CarriesOn vms h h') (hh'' : CarriesOn vms h' h'') : CarriesOn vms h h'' := by
  intro k r'' hr''
  rcases hh'' k r'' hr'' with ⟨r', hr', hlength'⟩ | hnew
  · rcases hh' k r' hr' with ⟨r, hr, hlength⟩ | ⟨v, hv, hlength⟩
    · exact .inl ⟨r, hr, hlength'.trans hlength⟩
    · exact .inr ⟨v, hv, hlength'.trans hlength⟩
  · exact .inr hnew

omit [Scalar α] in
/-- Only the request of one machine changes. -/
theorem of_own (id : Nat) (hothers : ∀ k, k ≠ id → h'.entry k = h.entry k)
    (hown : ∀ r', (h'.entry id).request = some r' →
      (∃ r, (h.entry id).request = some r ∧ r'.share.length = r.share.length)
        ∨ ∃ v, vms.find? id = some v ∧ r'.share.length = v.vcpus) : CarriesOn vms h h' := by
  intro k r' hr'
  by_cases hk : k = id
  · subst hk
    exact hown r' hr'
  · exact .inl ⟨r', hothers k hk ▸ hr', rfl⟩

theorem update (hv : ∃ w, vms.find? v.id = some w ∧ requested.length = w.vcpus) :
    CarriesOn vms h (h.update v requested) := by
  refine of_own v.id (fun k hk => ?_) (fun r' hr' => ?_)
  · rcases h.entry_update v requested k with hold | ⟨hkv, -⟩
    · exact hold
    · exact absurd hkv hk
  · rcases h.entry_update v requested v.id with hold | ⟨-, hask⟩
    · exact .inl ⟨r', hold ▸ hr', rfl⟩
    · rw [hask] at hr'
      cases hr'
      exact .inr hv

theorem create (hcreate : h.create? v requested = some h')
    (hv : ∃ w, vms.find? v.id = some w ∧ requested.length = w.vcpus) : CarriesOn vms h h' := by
  refine of_own v.id (fun k hk => by rw [entry_create? hcreate, if_neg hk]) (fun r' hr' => ?_)
  rw [entry_create? hcreate, if_pos rfl] at hr'
  cases hr'
  exact .inr hv

theorem expect (hv : ∃ w, vms.find? v.id = some w ∧ requested.length = w.vcpus) :
    CarriesOn vms h (h.expect v requested).2 := by
  refine of_own v.id (fun k hk => (h.entry_expect v requested k).trans (if_neg hk)) (fun r' hr' => ?_)
  rw [entry_expect, if_pos rfl] at hr'
  split at hr'
  · cases hr'
    exact .inr hv
  · contradiction

theorem markLeaving (id : Nat) : CarriesOn vms h (h.markLeaving id) := by
  refine of_requests fun k => ?_
  rw [entry_markLeaving]
  split <;> rfl

theorem receive (id : Nat) : CarriesOn vms h (h.receive id) := by
  intro k r' hr'
  rw [entry_receive] at hr'
  split at hr'
  · obtain ⟨r, hr, rfl⟩ := Option.map_eq_some_iff.mp hr'
    exact .inl ⟨r, hr, rfl⟩
  · exact .inl ⟨r', hr', rfl⟩

theorem remove (id : Nat) : CarriesOn vms h (h.remove id) := by
  intro k r' hr'
  rw [entry_remove] at hr'
  split at hr'
  · contradiction
  · exact .inl ⟨r', hr', rfl⟩

omit [Scalar α] in
theorem reprovision (v : Vm α) : CarriesOn vms h (h.reprovision v) := by
  refine of_requests fun k => ?_
  rw [entry_reprovision]
  split <;> rfl

theorem renewAll {time : α} {vs : List (Vm α)}
    (hvs : ∀ v ∈ vs, ∃ w, vms.find? v.id = some w ∧ v.vcpus = w.vcpus) :
    CarriesOn vms h (h.renewAll time vs) := by
  induction vs generalizing h with
  | nil => exact refl h
  | cons v vs ih =>
    obtain ⟨w, hw, hcount⟩ := hvs v List.mem_cons_self
    rw [renewAll_cons]
    exact (update ⟨w, hw, List.length_replicate.trans hcount⟩).trans
      (ih fun v' hv' => hvs v' (List.mem_cons_of_mem v hv'))

end Host.CarriesOn

/-! ## Pools -/

namespace Pool

variable {p q : Pool α} {b : Bool}

/-- The requests on file are for as many cores as the machines have. -/
def CountsCores (p : Pool α) : Prop :=
  ∀ (i : Nat) (h : Host α), p.hosts[i]? = some h → ∀ k r v, (h.entry k).request = some r →
    p.vms.find? k = some v → r.share.length = v.vcpus

/-- The hosts of `q` carry on the requests of the hosts of `p`. -/
def CarriesOn (p q : Pool α) : Prop :=
  ∀ (i : Nat) (h' : Host α), q.hosts[i]? = some h' →
    ∃ h, p.hosts[i]? = some h ∧ h.CarriesOn q.vms h'

namespace CarriesOn

omit [Scalar α] in
theorem of_sameHosts (hhosts : q.hosts = p.hosts) : p.CarriesOn q :=
  fun _ h hh => ⟨h, hhosts ▸ hh, .refl h⟩

omit [Scalar α] in
theorem of_setHost {i : Nat} {h h' : Host α} (hh : p.hosts[i]? = some h)
    (hcarries : h.CarriesOn q.vms h') (hhosts : q.hosts = p.hosts.set i h') : p.CarriesOn q := by
  intro j h₁ hh₁
  rw [hhosts, getElem?_setHost hh] at hh₁
  split at hh₁
  · rename_i hj
    cases hh₁
    exact ⟨h, hj ▸ hh, hcarries⟩
  · exact ⟨h₁, hh₁, .refl h₁⟩

omit [Scalar α] in
theorem of_modifyHost {i : Nat} {f : Host α → Host α}
    (hcarries : ∀ h, p.hosts[i]? = some h → h.CarriesOn q.vms (f h))
    (hhosts : q.hosts = (p.modifyHost i f).hosts) : p.CarriesOn q := by
  intro j h₁ hh₁
  rw [hhosts, getElem?_modifyHost] at hh₁
  split at hh₁
  · rename_i hj
    obtain ⟨h, hh, rfl⟩ := Option.map_eq_some_iff.mp hh₁
    exact ⟨h, hh, hcarries h (hj ▸ hh)⟩
  · exact ⟨h₁, hh₁, .refl h₁⟩

omit [Scalar α] in
theorem switchOffIfPending (p : Pool α) (i : Nat) : p.CarriesOn (p.switchOffIfPending i) := by
  intro j h' hh'
  obtain ⟨h, hh, rfl | ⟨-, -, rfl⟩⟩ := switchOffIfPending_host p i hh'
  · exact ⟨h', hh, .refl h'⟩
  · exact ⟨h, hh, .of_requests fun _ => rfl⟩

end CarriesOn

namespace CountsCores

/-- Requests that are carried on stay right as long as machines keep their cores. -/
theorem of_carriesOn (hp : p.CountsCores) (hb : p.Bookkeeping) (hcarries : p.CarriesOn q)
    (hvms : ∀ k v v', p.vms.find? k = some v → q.vms.find? k = some v' → v'.vcpus = v.vcpus) :
    q.CountsCores := by
  intro i h' hh' k r' v' hr' hv'
  obtain ⟨h, hh, hcarries⟩ := hcarries i h' hh'
  rcases hcarries k r' hr' with ⟨r, hr, hlength⟩ | ⟨v, hv, hlength⟩
  · obtain ⟨v, hv, -⟩ := (hb.agrees i h hh k).asked r hr
    rw [hlength, hp i h hh k r v hr hv, hvms k v v' hv hv']
  · obtain rfl := Option.some.inj (hv.symm.trans hv')
    exact hlength

/-- Requests that are carried on stay right when nothing is changed about machines. -/
theorem of_sameVms (hp : p.CountsCores) (hb : p.Bookkeeping) (hcarries : p.CarriesOn q)
    (hvms : q.vms = p.vms) : q.CountsCores := by
  refine hp.of_carriesOn hb hcarries fun k v v' hv hv' => ?_
  rw [hvms] at hv'
  rw [Option.some.inj (hv.symm.trans hv')]

omit [Scalar α] in
/-- A machine whose record changes may keep its cores. -/
theorem vcpus_insert {vms : IdMap (Vm α)} {id k : Nat} {v w w' : Vm α}
    (hv : vms.find? id = some v) (v' : Vm α) (hsame : v'.vcpus = v.vcpus) (hw : vms.find? k = some w)
    (hw' : (vms.insert id v').find? k = some w') : w'.vcpus = w.vcpus := by
  rw [IdMap.find?_insert] at hw'
  split at hw'
  · rename_i hk
    obtain rfl := Option.some.inj ((hk ▸ hw).symm.trans hv)
    rw [← Option.some.inj hw', hsame]
  · rw [Option.some.inj (hw.symm.trans hw')]

theorem addHost (hp : p.CountsCores) {h : Host α} {id : Nat} (hfresh : h.IsFresh)
    (hq : p.addHost h = .ok (id, q)) : q.CountsCores := by
  obtain ⟨-, rfl⟩ := addHost_outcome hq
  intro i h' hh' k r v hr hv
  rw [List.getElem?_append] at hh'
  split at hh'
  · exact hp i h' hh' k r v hr hv
  · rw [List.getElem?_singleton] at hh'
    split at hh'
    · cases hh'
      have hr : (h.entry k).request = some r := hr
      rw [Bookkeeping.entry_of_isFresh hfresh k] at hr
      contradiction
    · contradiction

theorem addVm (hp : p.CountsCores) (hb : p.Bookkeeping) {vm : Vm α}
    (hq : p.addVm vm = .ok (b, q)) : q.CountsCores := by
  rcases addVm_outcome hq with ⟨-, rfl⟩ | ⟨-, hnew, rfl⟩
  · exact hp
  · refine hp.of_carriesOn hb (.of_sameHosts rfl) fun k v v' hv hv' => ?_
    rw [IdMap.find?_insert] at hv'
    split at hv'
    · rename_i hk
      rw [hk, hnew] at hv
      contradiction
    · rw [Option.some.inj (hv.symm.trans hv')]

theorem create (hp : p.CountsCores) (hb : p.Bookkeeping) {vm host : Nat}
    (hq : p.create vm host = .ok (b, q)) : q.CountsCores := by
  rcases create_outcome hq with ⟨-, rfl⟩ | ⟨-, v, h, h', hv, -, hh, -, hcreate, rfl⟩
  · exact hp
  obtain rfl : v.id = vm := (hb.registered vm).id v hv
  refine hp.of_carriesOn hb (.of_setHost hh (.create hcreate ?_) rfl) fun k w w' hw hw' => ?_
  · exact ⟨v.moveTo (some host) p.time, by simp, List.length_replicate⟩
  · exact vcpus_insert hv (v.moveTo (some host) p.time) rfl hw hw'

theorem switchOffIfPending (hp : p.CountsCores) (hb : p.Bookkeeping) (i : Nat) :
    (p.switchOffIfPending i).CountsCores :=
  hp.of_sameVms hb (.switchOffIfPending p i) (switchOffIfPending_vms p i)

theorem destroy (hp : p.CountsCores) (hb : p.Bookkeeping) (vm : Nat) :
    (p.destroy vm).2.CountsCores := by
  cases hloc : p.location? vm with
  | none =>
    rw [destroy_of_not_placed hloc]
    exact hp
  | some source =>
    rw [destroy_of_placed hloc]
    have hvacate : p.CarriesOn (p.vacate vm source) := by
      intro i h' hh'
      rw [getElem?_vacate (hb.target_ne hloc)] at hh'
      split at hh'
      · obtain ⟨h, hh, rfl⟩ := Option.map_eq_some_iff.mp hh'
        exact ⟨h, hh, .remove vm⟩
      · exact ⟨h', hh', .refl h'⟩
    refine switchOffIfPending (hp.of_carriesOn hb hvacate fun k v v' hv hv' => ?_)
      (hb.vacated hloc) source
    rw [find?_vacate_vms, hv] at hv'
    split at hv' <;> cases hv' <;> rfl

theorem startMigration (hp : p.CountsCores) (hb : p.Bookkeeping) {vm target : Nat}
    (hq : p.startMigration vm target = .ok (b, q)) : q.CountsCores := by
  rcases startMigration_outcome hq with
    ⟨-, rfl⟩ | ⟨v, source, h, h', hv, -, -, hne, hh, -, hexpect, hform⟩
  · exact hp
  obtain rfl : v.id = vm := (hb.registered vm).id v hv
  have hcarries : ∀ vms : IdMap (Vm α),
      (∃ w, vms.find? v.id = some w ∧ v.vcpus = w.vcpus) → h.CarriesOn vms h' := by
    rintro vms ⟨w, hw, hcount⟩
    have hexpected : h.CarriesOn vms (h.expect (leaving v) (v.request p.time)).2 :=
      .expect ⟨w, hw, List.length_replicate.trans hcount⟩
    rwa [hexpect] at hexpected
  rcases hform with ⟨-, rfl⟩ | ⟨-, rfl⟩
  · exact hp.of_sameVms hb (.of_setHost hh (hcarries _ ⟨v, hv, rfl⟩) rfl) rfl
  · refine hp.of_carriesOn hb (fun i h₁ hh₁ => ?_) fun k w w' hw hw' =>
      vcpus_insert hv (leaving v) rfl hw hw'
    rw [getElem?_depart hh hne] at hh₁
    split at hh₁
    · rename_i hi
      cases hh₁
      exact ⟨h, hi ▸ hh, hcarries _ ⟨leaving v, by simp [depart], rfl⟩⟩
    · split at hh₁
      · obtain ⟨h₂, hh₂, rfl⟩ := Option.map_eq_some_iff.mp hh₁
        exact ⟨h₂, hh₂, .markLeaving v.id⟩
      · exact ⟨h₁, hh₁, .refl h₁⟩

theorem finishMigration (hp : p.CountsCores) (hb : p.Bookkeeping) (vm : Nat) :
    (p.finishMigration vm).2.CountsCores := by
  cases hmig : p.migrations.find? vm with
  | none =>
    rw [finishMigration_of_none hmig]
    exact hp
  | some t =>
    obtain ⟨-, v, source, hv, hs, hne⟩ := (hb.registered vm).target t hmig
    obtain rfl : v.id = vm := (hb.registered vm).id v hv
    rw [finishMigration_of_some hmig hv hs]
    refine switchOffIfPending (hp.of_carriesOn hb (fun i h' hh' => ?_) fun k w w' hw hw' => ?_)
      (hb.arrived hmig hv hs hne) source
    · rw [getElem?_arrive hne] at hh'
      split at hh'
      · obtain ⟨h, hh, rfl⟩ := Option.map_eq_some_iff.mp hh'
        exact ⟨h, hh, .receive v.id⟩
      · split at hh'
        · obtain ⟨h, hh, rfl⟩ := Option.map_eq_some_iff.mp hh'
          exact ⟨h, hh, .remove v.id⟩
        · exact ⟨h', hh', .refl h'⟩
    · have hw' : (p.vms.insert v.id ({ v with migration := .settled }.moveTo (some t) p.time)).find?
          k = some w' := hw'
      exact vcpus_insert hv _ (by rfl) hw hw'

theorem execute (hp : p.CountsCores) (hb : p.Bookkeeping) {plan : MigrationPlan} {count : Nat}
    (hq : p.execute plan = .ok (count, q)) : q.CountsCores := by
  obtain ⟨kept, r, hstart, hmark⟩ := execute_outcome hq
  obtain ⟨hr, hbr⟩ : r.CountsCores ∧ r.Bookkeeping :=
    startAll_induction hstart (motive := fun p => p.CountsCores ∧ p.Bookkeeping)
      (fun hstart h => ⟨h.1.startMigration h.2 hstart, h.2.startMigration hstart⟩) ⟨hp, hb⟩
  refine (markAllOff_induction hmark (motive := fun p => p.CountsCores ∧ p.Bookkeeping)
    (fun {p i h} _ hp => ?_) ⟨hr, hbr⟩).1
  have hmarked : ({ p with pendingOff := p.pendingOff.add i } : Pool α).Bookkeeping :=
    ⟨hp.2.hostId, hp.2.registered, hp.2.agrees, hp.2.occupied⟩
  exact ⟨switchOffIfPending (p := { p with pendingOff := p.pendingOff.add i }) hp.1 hmarked i,
    hmarked.switchOffIfPending i⟩

/-- A machine that is given more or fewer cores is on file on its host only, and there its request is
registered again. -/
theorem scale (hp : p.CountsCores) (hb : p.Bookkeeping) {vm : Nat} {resource : Resource}
    {delta : Int} (hq : p.scale vm resource delta = .ok (b, q)) : q.CountsCores := by
  rcases scale_outcome hq with rfl | ⟨v, host, h, hv, hhost, hsettled, hh, hform⟩
  · exact hp
  obtain rfl : v.id = vm := (hb.registered vm).id v hv
  rcases hform with ⟨count, h', -, hgranted, rfl⟩ | ⟨-, rfl⟩ | ⟨ram, bandwidth, -, -, -, rfl⟩
  · intro i h₁ hh₁ k r w hr hw
    rw [IdMap.find?_insert] at hw
    rw [getElem?_setHost hh] at hh₁
    split at hh₁
    · cases hh₁
      rw [Host.entry_admit? hgranted] at hr
      by_cases hk : k = v.id
      · rw [if_pos hk] at hr hw
        cases hr
        rw [← Option.some.inj hw]
        exact List.length_replicate
      · rw [if_neg hk] at hr hw
        exact hp host h hh k r w hr hw
    · by_cases hk : k = v.id
      · have hblank : h₁.entry k = .blank :=
          hb.entry_eq_blank hh₁ (by simpa [hk, location?, hv, hhost] using Ne.symm ‹_›)
            (by simp [hk, (hb.settled_iff hv).mp hsettled])
        rw [hblank] at hr
        contradiction
      · rw [if_neg hk] at hw
        exact hp i h₁ hh₁ k r w hr hw
  · exact hp.of_sameVms hb (.of_setHost hh (.update ⟨v, hv, List.length_replicate⟩) rfl) rfl
  · exact hp.of_carriesOn hb (.of_setHost hh (.reprovision _) rfl) fun k w w' hw hw' =>
      vcpus_insert hv ({ v with ram := ram, bandwidth := bandwidth }) rfl hw hw'

theorem updateProcessing (hp : p.CountsCores) (hb : p.Bookkeeping) :
    p.updateProcessing.CountsCores := by
  have hvms : ∀ k, p.updateProcessing.vms.find? k = (p.vms.find? k).map (recordVm p.time) := by
    intro k
    rw [hb.updateProcessing_eq]
    exact IdMap.find?_map ..
  have hcount : ∀ v, (recordVm p.time v).vcpus = v.vcpus := by
    intro v
    unfold recordVm
    split <;> rfl
  refine hp.of_carriesOn hb (fun i h' hh' => ?_) fun k v v' hv hv' => ?_
  · rw [hb.getElem?_updateProcessing] at hh'
    obtain ⟨h, hh, rfl⟩ := Option.map_eq_some_iff.mp hh'
    refine ⟨h, hh, (Host.CarriesOn.renewAll fun v hv => ⟨recordVm p.time v, ?_, ?_⟩).trans
      (.of_requests fun _ => rfl)⟩
    · exact (hvms v.id).trans (by rw [hb.find?_of_mem_values (List.mem_of_mem_filter hv)]; rfl)
    · exact (hcount v).symm
  · rw [hvms, hv] at hv'
    rw [← Option.some.inj hv', hcount]

/-- One operation keeps the counts right. -/
theorem perform (hp : p.CountsCores) (hb : p.Bookkeeping) {op : Operation α}
    (hop : op.IsAdmissible) (hq : p.perform op = .ok q) : q.CountsCores := by
  cases op with
  | setTime time =>
    obtain rfl := Except.ok.inj hq
    exact hp
  | advance duration =>
    obtain rfl := Except.ok.inj hq
    exact hp
  | addHost host =>
    obtain ⟨⟨id, _⟩, hdone, rfl⟩ := Fault.map_eq_ok.mp hq
    exact hp.addHost hop hdone
  | addVm vm =>
    obtain ⟨⟨b, _⟩, hdone, rfl⟩ := Fault.map_eq_ok.mp hq
    exact hp.addVm hb hdone
  | create vm host =>
    obtain ⟨⟨b, _⟩, hdone, rfl⟩ := Fault.map_eq_ok.mp hq
    exact hp.create hb hdone
  | destroy vm =>
    obtain rfl := Except.ok.inj hq
    exact hp.destroy hb vm
  | startMigration vm target =>
    obtain ⟨⟨b, _⟩, hdone, rfl⟩ := Fault.map_eq_ok.mp hq
    exact hp.startMigration hb hdone
  | finishMigration vm =>
    obtain rfl := Except.ok.inj hq
    exact hp.finishMigration hb vm
  | execute plan =>
    obtain ⟨⟨count, _⟩, hdone, rfl⟩ := Fault.map_eq_ok.mp hq
    exact hp.execute hb hdone
  | scale vm resource delta =>
    obtain ⟨⟨b, _⟩, hdone, rfl⟩ := Fault.map_eq_ok.mp hq
    exact hp.scale hb hdone
  | setHostActive host on =>
    obtain ⟨⟨b, _⟩, hdone, rfl⟩ := Fault.map_eq_ok.mp hq
    rcases setHostActive_outcome hdone with ⟨-, rfl⟩ | ⟨-, h, -, -, hhosts, hvms, -⟩
    · exact hp
    · refine hp.of_sameVms hb (.of_modifyHost (fun h _ => ?_) hhosts) hvms
      exact .of_requests fun _ => rfl
  | failCore host core =>
    obtain ⟨h, h', hh, hfail, rfl⟩ := failCore_outcome hq
    refine hp.of_sameVms hb (.of_modifyHost (fun h₁ hh₁ => ?_) rfl) rfl
    obtain rfl := Option.some.inj (hh.symm.trans hh₁)
    exact .of_requests fun k => by rw [Host.entry_failCore hfail]
  | updateProcessing =>
    obtain rfl := Except.ok.inj hq
    exact hp.updateProcessing hb

end CountsCores

/-- In reachable pools the requests on file are for as many cores as the machines have. -/
theorem countsCores_of_reachable (hp : p.Reachable) : p.CountsCores := by
  induction hp with
  | new time historySize => exact fun _ _ hi => nomatch hi
  | perform hp hop hq ih => exact ih.perform (bookkeeping_of_reachable hp) hop hq

end Pool

end Datacenter
