import Datacenter.Binary64.Basic
import Datacenter.Proofs.Pool.Preservation

/-!
# Hosts that wait to be switched off

A host is marked to be switched off while machines still hold something on it, and is looked at
again when a machine leaves it. `Pool.WaitsOccupied` says that this never comes too late: every host
that waits is on and holds a machine.

There is one operation after which it may fail. A migrating machine holds something on the target,
too; if it is destroyed, only the host on which it resides is looked at again. Should the target
wait to be switched off and hold nothing else, it is empty from then on and keeps waiting
(`Pool.Strands`). This is the only exception: `waitsOccupied_iff_not_strands` is about one
operation, and `waitsOccupied_throughout_iff` about all runs from the empty pool.

## Shape of the proof

Most operations take no machine off any host and make no host wait (`Pool.KeepsSeats`). The others
end by looking at a host again, and before that at most this one both waits and is empty
(`Pool.Tidy`).
-/

namespace Datacenter

variable {α : Type} [Scalar α]

/-! ## Machines on one host -/

/-- No machine of `h` has lost its seat in `h'`. -/
def Host.Keeps (h h' : Host α) : Prop :=
  ∀ k, (h.entry k).isSeated = true → (h'.entry k).isSeated = true

namespace Host

omit [Scalar α] in
theorem isEmpty_eq_false_iff {h : Host α} :
    h.isEmpty = false ↔ ∃ k, (h.entry k).isSeated = true := by
  rw [Bool.eq_false_iff, ne_eq, isEmpty_iff]
  simp

variable {h h' : Host α} {vm : Vm α} {requested : List α}

omit [Scalar α] in
theorem Keeps.refl (h : Host α) : h.Keeps h :=
  fun _ hseat => hseat

omit [Scalar α] in
theorem Keeps.trans {h'' : Host α} (h₁ : h.Keeps h') (h₂ : h'.Keeps h'') : h.Keeps h'' :=
  fun k hseat => h₂ k (h₁ k hseat)

omit [Scalar α] in
theorem Keeps.isEmpty (hkeeps : h.Keeps h') (hempty : h.isEmpty = false) : h'.isEmpty = false := by
  obtain ⟨k, hseat⟩ := isEmpty_eq_false_iff.mp hempty
  exact isEmpty_eq_false_iff.mpr ⟨k, hkeeps k hseat⟩

theorem keeps_admit? (hgranted : h.admit? vm requested = some h') : h.Keeps h' := by
  intro k hseat
  rw [entry_admit? hgranted]
  split <;> exact hseat

theorem keeps_create? (hcreate : h.create? vm requested = some h') : h.Keeps h' := by
  intro k hseat
  rw [entry_create? hcreate]
  split
  · rfl
  · exact hseat

theorem keeps_expect (h : Host α) (vm : Vm α) (requested : List α) :
    h.Keeps (h.expect vm requested).2 := by
  intro k hseat
  rw [entry_expect]
  split
  · split
    · simp [Entry.expect, Entry.isSeated]
    · exact hseat
  · exact hseat

theorem keeps_markLeaving (h : Host α) (id : Nat) : h.Keeps (h.markLeaving id) := by
  intro k hseat
  rw [entry_markLeaving]
  split <;> exact hseat

theorem keeps_receive (h : Host α) (id : Nat) : h.Keeps (h.receive id) := by
  intro k hseat
  rw [entry_receive]
  split
  · rfl
  · exact hseat

theorem keeps_update (h : Host α) (vm : Vm α) (requested : List α) :
    h.Keeps (h.update vm requested) := by
  intro k hseat
  rcases h.entry_update vm requested k with hsame | ⟨-, hask⟩
  · rwa [hsame]
  · rw [hask]
    exact hseat

omit [Scalar α] in
theorem keeps_reprovision (h : Host α) (vm : Vm α) : h.Keeps (h.reprovision vm) := by
  intro k hseat
  rw [entry_reprovision]
  split <;> exact hseat

theorem keeps_failCore {i : Nat} (hfail : h.failCore i = .ok h') : h.Keeps h' := by
  intro k hseat
  rwa [entry_failCore hfail]

end Host

/-! ## Machines on all hosts -/

namespace Pool

/-- Every host that waits to be switched off is on and holds a machine. -/
def WaitsOccupied (p : Pool α) : Prop :=
  ∀ i, p.pendingOff.contains i = true →
    ∃ h, p.hosts[i]? = some h ∧ h.isActive = true ∧ h.isEmpty = false

/-- The operation destroys a machine whose migration goes to a host that waits to be switched off
and holds no other machine. -/
def Strands (p : Pool α) : Operation α → Prop
  | .destroy vm => ∃ t h, p.migrations.find? vm = some t ∧ p.pendingOff.contains t = true
    ∧ p.hosts[t]? = some h ∧ ∀ k, k ≠ vm → (h.entry k).isSeated = false
  | _ => False

/-- From `p` to `q` no machine has lost a seat on a host, and no further host waits. -/
structure KeepsSeats (p q : Pool α) : Prop where
  pending : ∀ i, q.pendingOff.contains i = true → p.pendingOff.contains i = true
  host : ∀ (i : Nat) (h : Host α), p.hosts[i]? = some h → ∃ h', q.hosts[i]? = some h' ∧ h.Keeps h'

variable {p q r : Pool α}

namespace KeepsSeats

omit [Scalar α] in
theorem of_sameHosts
    (hpending : ∀ i, q.pendingOff.contains i = true → p.pendingOff.contains i = true)
    (hhosts : q.hosts = p.hosts) : p.KeepsSeats q where
  pending := hpending
  host _ h hh := ⟨h, hhosts ▸ hh, .refl h⟩

omit [Scalar α] in
theorem refl (p : Pool α) : p.KeepsSeats p :=
  of_sameHosts (fun _ hi => hi) rfl

omit [Scalar α] in
theorem trans (hpq : p.KeepsSeats q) (hqr : q.KeepsSeats r) : p.KeepsSeats r where
  pending i hi := hpq.pending i (hqr.pending i hi)
  host i h hh := by
    obtain ⟨h', hh', hkeeps⟩ := hpq.host i h hh
    obtain ⟨h'', hh'', hkeeps'⟩ := hqr.host i h' hh'
    exact ⟨h'', hh'', hkeeps.trans hkeeps'⟩

omit [Scalar α] in
theorem of_setHost {i : Nat} {h h' : Host α} (hh : p.hosts[i]? = some h) (hkeeps : h.Keeps h')
    (hpending : ∀ i, q.pendingOff.contains i = true → p.pendingOff.contains i = true)
    (hhosts : q.hosts = p.hosts.set i h') : p.KeepsSeats q where
  pending := hpending
  host j h₁ hh₁ := by
    rw [hhosts, getElem?_setHost hh]
    split
    · rename_i hj
      obtain rfl := Option.some.inj (hh.symm.trans (hj ▸ hh₁))
      exact ⟨h', rfl, hkeeps⟩
    · exact ⟨h₁, hh₁, .refl h₁⟩

omit [Scalar α] in
theorem of_modifyHost {i : Nat} {f : Host α → Host α}
    (hkeeps : ∀ h, p.hosts[i]? = some h → h.Keeps (f h))
    (hpending : ∀ i, q.pendingOff.contains i = true → p.pendingOff.contains i = true)
    (hhosts : q.hosts = (p.modifyHost i f).hosts) : p.KeepsSeats q where
  pending := hpending
  host j h hh := by
    rw [hhosts, getElem?_modifyHost]
    split
    · rename_i hj
      exact ⟨f h, by rw [hh]; rfl, hkeeps h (hj ▸ hh)⟩
    · exact ⟨h, hh, .refl h⟩

end KeepsSeats

/-! ## Operations that take no machine away -/

section

variable {b : Bool}

omit [Scalar α] in
theorem contains_of_contains_erase {s : IdSet} {j i : Nat} (h : (s.erase j).contains i = true) :
    s.contains i = true := by
  rw [IdMap.contains_erase, Bool.and_eq_true] at h
  exact h.2

omit [Scalar α] in
theorem keepsSeats_addHost {h : Host α} {id : Nat} (hq : p.addHost h = .ok (id, q)) :
    p.KeepsSeats q := by
  obtain ⟨-, rfl⟩ := addHost_outcome hq
  refine ⟨fun _ hi => hi, fun i h' hh' => ⟨h', ?_, .refl h'⟩⟩
  rw [List.getElem?_append_left (List.getElem?_eq_some_iff.mp hh').1]
  exact hh'

omit [Scalar α] in
theorem keepsSeats_addVm {vm : Vm α} (hq : p.addVm vm = .ok (b, q)) : p.KeepsSeats q := by
  rcases addVm_outcome hq with ⟨-, rfl⟩ | ⟨-, -, rfl⟩
  · exact .refl q
  · exact .of_sameHosts (fun _ hi => hi) rfl

theorem keepsSeats_create {vm host : Nat} (hq : p.create vm host = .ok (b, q)) :
    p.KeepsSeats q := by
  rcases create_outcome hq with ⟨-, rfl⟩ | ⟨-, v, h, h', -, -, hh, -, hcreate, rfl⟩
  · exact .refl q
  · exact .of_setHost hh (Host.keeps_create? hcreate) (fun _ => contains_of_contains_erase) rfl

theorem keepsSeats_startMigration {vm target : Nat}
    (hq : p.startMigration vm target = .ok (b, q)) : p.KeepsSeats q := by
  rcases startMigration_outcome hq with
    ⟨-, rfl⟩ | ⟨v, source, h, h', -, -, -, -, hh, -, hexpect, hq⟩
  · exact .refl q
  have hkeeps : h.Keeps h' := by
    have := h.keeps_expect (leaving v) (v.request p.time)
    rwa [hexpect] at this
  have htarget : p.KeepsSeats { p with hosts := p.hosts.set target h' } :=
    .of_setHost hh hkeeps (fun _ hi => hi) rfl
  rcases hq with ⟨-, rfl⟩ | ⟨-, rfl⟩
  · exact htarget
  · exact htarget.trans (.of_modifyHost (fun h _ => h.keeps_markLeaving vm)
      (fun _ => contains_of_contains_erase) rfl)

theorem keepsSeats_scale {vm : Nat} {resource : Resource} {delta : Int}
    (hq : p.scale vm resource delta = .ok (b, q)) : p.KeepsSeats q := by
  rcases scale_outcome hq with rfl | ⟨v, host, h, -, -, -, hh, hcase⟩
  · exact .refl q
  rcases hcase with ⟨count, h', -, hgranted, rfl⟩ | ⟨-, rfl⟩ | ⟨ram, bandwidth, -, -, -, rfl⟩
  · exact .of_setHost hh (Host.keeps_admit? hgranted) (fun _ hi => hi) rfl
  · exact .of_setHost hh (h.keeps_update v _) (fun _ hi => hi) rfl
  · exact .of_setHost hh (h.keeps_reprovision _) (fun _ hi => hi) rfl

omit [Scalar α] in
theorem keepsSeats_setHostActive {id : Nat} {on : Bool}
    (hq : p.setHostActive id on = .ok (b, q)) : p.KeepsSeats q := by
  have hpending := fun i hi => setHostActive_pendingOff (i := i) hq hi
  rcases setHostActive_outcome hq with ⟨-, rfl⟩ | ⟨-, h, -, -, hhosts, -⟩
  · exact .refl q
  · exact .of_modifyHost (f := fun h => { h with isActive := on }) (fun _ _ _ hseat => hseat)
      hpending hhosts

theorem keepsSeats_failCore {id core : Nat} (hq : p.failCore id core = .ok q) :
    p.KeepsSeats q := by
  obtain ⟨h, h', hh, hfail, rfl⟩ := failCore_outcome hq
  refine .of_modifyHost (fun h₁ hh₁ => ?_) (fun _ hi => hi) rfl
  obtain rfl := Option.some.inj (hh.symm.trans hh₁)
  exact Host.keeps_failCore hfail

theorem keepsSeats_updateProcessing (p : Pool α) : p.KeepsSeats p.updateProcessing := by
  have hrefresh : p.KeepsSeats (p.refreshAll p.vms.values) :=
    refreshAll_induction _ (fun v _ hq =>
      hq.trans (.of_modifyHost (fun h _ => h.keeps_update v _) (fun _ hi => hi) rfl)) (.refl p)
  refine hrefresh.trans ⟨fun _ hi => hi, fun i h hh => ?_⟩
  exact ⟨h.recordUtilization _, by rw [updateProcessing, recordAll, List.getElem?_map, hh]; rfl,
    fun _ hseat => hseat⟩

theorem keepsSeats_startAll {moves : List (Nat × Nat)} {count : Nat} {kept : IdSet}
    (hq : startAll moves p = .ok (count, kept, q)) : p.KeepsSeats q :=
  startAll_induction hq (fun hstart hp => hp.trans (keepsSeats_startMigration hstart)) (.refl p)

end

/-! ## Looking at a host again -/

/-- Every host that waits holds a machine, host `except?` left out. -/
def Tidy (except? : Option Nat) (q : Pool α) : Prop :=
  ∀ i, except? ≠ some i → q.pendingOff.contains i = true →
    ∃ h, q.hosts[i]? = some h ∧ h.isEmpty = false

namespace Tidy

omit [Scalar α] in
theorem of_keepsSeats (hwait : p.WaitsOccupied) (hkeeps : p.KeepsSeats q) : Tidy none q := by
  intro i _ hi
  obtain ⟨h, hh, -, hfull⟩ := hwait i (hkeeps.pending i hi)
  obtain ⟨h', hh', hkeep⟩ := hkeeps.host i h hh
  exact ⟨h', hh', hkeep.isEmpty hfull⟩

omit [Scalar α] in
/-- Looking at the host left out makes up for it. -/
theorem switchOffIfPending {i : Nat} {h : Host α} (htidy : Tidy (some i) q)
    (hh : q.hosts[i]? = some h) : Tidy none (q.switchOffIfPending i) := by
  intro j _ hj
  rw [contains_switchOffIfPending hh] at hj
  obtain ⟨hj, hfull⟩ := hj
  rw [getElem?_switchOffIfPending hh, if_neg fun hoff => hfull ⟨hoff.1, hoff.2.2⟩]
  by_cases hji : j = i
  · subst hji
    exact ⟨h, hh, by simpa using hfull⟩
  · exact htidy j (by simpa using Ne.symm hji) hj

end Tidy

/-! ## Operations that take machines away -/

theorem tidy_finishMigration (hp : p.Bookkeeping) (hwait : p.WaitsOccupied) (vm : Nat) :
    Tidy none (p.finishMigration vm).2 := by
  cases hmig : p.migrations.find? vm with
  | none =>
    rw [finishMigration_of_none hmig]
    exact .of_keepsSeats hwait (.refl p)
  | some t =>
    obtain ⟨-, v, source, hv, hs, hne⟩ := (hp.registered vm).target t hmig
    rw [finishMigration_of_some hmig hv hs]
    have hget : ∀ i, (p.arrive vm v source t).hosts[i]? = _ := getElem?_arrive hne
    -- the target keeps the machine, and only the source has lost it
    have htidy : Tidy (some source) (p.arrive vm v source t) := by
      intro i hi hwaits
      obtain ⟨h, hh, -, hfull⟩ := hwait i hwaits
      rw [hget, if_neg (show i ≠ source by simpa using Ne.symm hi), hh]
      split
      · exact ⟨_, rfl, (h.keeps_receive vm).isEmpty hfull⟩
      · exact ⟨h, rfl, hfull⟩
    have hlt : source < p.hosts.length := (hp.registered vm).placed v source hv hs
    obtain ⟨h, hh⟩ : ∃ h, (p.arrive vm v source t).hosts[source]? = some h := by
      rw [hget, if_neg hne, if_pos rfl, List.getElem?_eq_getElem hlt]
      exact ⟨_, rfl⟩
    exact htidy.switchOffIfPending hh

theorem tidy_destroy (hp : p.Bookkeeping) (hwait : p.WaitsOccupied) {vm : Nat}
    (hstays : ¬ p.Strands (.destroy vm)) : Tidy none (p.destroy vm).2 := by
  cases hloc : p.location? vm with
  | none =>
    rw [destroy_of_not_placed hloc]
    exact .of_keepsSeats hwait (.refl p)
  | some source =>
    rw [destroy_of_placed hloc]
    have hget := fun i => getElem?_vacate (hp.target_ne hloc) i
    have htidy : Tidy (some source) (p.vacate vm source) := by
      intro i hi hwaits
      rw [vacate_pendingOff] at hwaits
      obtain ⟨h, hh, -, hfull⟩ := hwait i hwaits
      rw [hget, hh]
      split
      · rename_i htarget
        have ht : p.migrations.find? vm = some i :=
          htarget.resolve_left (by simpa using Ne.symm hi)
        -- a target that is not stranded holds some other machine
        obtain ⟨k, hk, hseat⟩ : ∃ k, k ≠ vm ∧ (h.entry k).isSeated = true := by
          refine Classical.byContradiction fun hnone =>
            hstays ⟨i, h, ht, hwaits, hh, fun k hk => ?_⟩
          exact Bool.eq_false_iff.mpr fun hseat => hnone ⟨k, hk, hseat⟩
        refine ⟨h.remove vm, rfl, Host.isEmpty_eq_false_iff.mpr ⟨k, ?_⟩⟩
        rwa [Host.entry_remove, if_neg hk]
      · exact ⟨h, rfl, hfull⟩
    obtain ⟨v, hv, hs⟩ := Option.bind_eq_some_iff.mp hloc
    have hlt : source < p.hosts.length := (hp.registered vm).placed v source hv hs
    obtain ⟨h, hh⟩ : ∃ h, (p.vacate vm source).hosts[source]? = some h := by
      rw [hget, if_pos (.inl rfl), List.getElem?_eq_getElem hlt]
      exact ⟨_, rfl⟩
    exact htidy.switchOffIfPending hh

omit [Scalar α] in
theorem tidy_markAllOff {kept : IdSet} {hosts : List Nat} (htidy : Tidy none q)
    (hr : markAllOff kept hosts q = .ok r) : Tidy none r := by
  refine markAllOff_induction hr (fun {q i h} hh htidy => ?_) htidy
  have hmarked : Tidy (some i) { q with pendingOff := q.pendingOff.add i } := by
    intro j hj hwaits
    rw [IdSet.contains_add, decide_eq_false (show j ≠ i by simpa using Ne.symm hj),
      Bool.false_or] at hwaits
    exact htidy j (by simp) hwaits
  exact hmarked.switchOffIfPending hh

/-- An operation that strands no host leaves no host waiting and empty. -/
theorem tidy_perform (hp : p.Bookkeeping) (hwait : p.WaitsOccupied) {op : Operation α}
    (hstays : ¬ p.Strands op) (hq : p.perform op = .ok q) : Tidy none q := by
  cases op with
  | setTime time =>
    obtain rfl := Except.ok.inj hq
    exact .of_keepsSeats hwait (.of_sameHosts (fun _ hi => hi) rfl)
  | advance duration =>
    obtain rfl := Except.ok.inj hq
    exact .of_keepsSeats hwait (.of_sameHosts (fun _ hi => hi) rfl)
  | addHost host =>
    obtain ⟨⟨id, _⟩, hdone, rfl⟩ := Fault.map_eq_ok.mp hq
    exact .of_keepsSeats hwait (keepsSeats_addHost hdone)
  | addVm vm =>
    obtain ⟨⟨b, _⟩, hdone, rfl⟩ := Fault.map_eq_ok.mp hq
    exact .of_keepsSeats hwait (keepsSeats_addVm hdone)
  | create vm host =>
    obtain ⟨⟨b, _⟩, hdone, rfl⟩ := Fault.map_eq_ok.mp hq
    exact .of_keepsSeats hwait (keepsSeats_create hdone)
  | destroy vm =>
    obtain rfl := Except.ok.inj hq
    exact tidy_destroy hp hwait hstays
  | startMigration vm target =>
    obtain ⟨⟨b, _⟩, hdone, rfl⟩ := Fault.map_eq_ok.mp hq
    exact .of_keepsSeats hwait (keepsSeats_startMigration hdone)
  | finishMigration vm =>
    obtain rfl := Except.ok.inj hq
    exact tidy_finishMigration hp hwait vm
  | execute plan =>
    obtain ⟨⟨count, _⟩, hdone, rfl⟩ := Fault.map_eq_ok.mp hq
    obtain ⟨kept, r, hstart, hmark⟩ := execute_outcome hdone
    exact tidy_markAllOff (.of_keepsSeats hwait (keepsSeats_startAll hstart)) hmark
  | scale vm resource delta =>
    obtain ⟨⟨b, _⟩, hdone, rfl⟩ := Fault.map_eq_ok.mp hq
    exact .of_keepsSeats hwait (keepsSeats_scale hdone)
  | setHostActive host on =>
    obtain ⟨⟨b, _⟩, hdone, rfl⟩ := Fault.map_eq_ok.mp hq
    exact .of_keepsSeats hwait (keepsSeats_setHostActive hdone)
  | failCore host core => exact .of_keepsSeats hwait (keepsSeats_failCore hq)
  | updateProcessing =>
    obtain rfl := Except.ok.inj hq
    exact .of_keepsSeats hwait (keepsSeats_updateProcessing p)

/-! ## The exception -/

/-- A stranded host waits and is empty. -/
theorem not_waitsOccupied_of_strands (hp : p.Bookkeeping) {op : Operation α}
    (hstrands : p.Strands op) (hq : p.perform op = .ok q) : ¬ q.WaitsOccupied := by
  cases op <;> try exact hstrands.elim
  rename_i vm
  obtain ⟨t, h, hmig, hwaits, hh, hothers⟩ := hstrands
  obtain ⟨-, v, source, hv, hs, hne⟩ := (hp.registered vm).target t hmig
  have hloc : p.location? vm = some source := by simp [location?, hv, hs]
  have hget := fun i => getElem?_vacate (hp.target_ne hloc) i
  obtain ⟨hsource, hhsource⟩ : ∃ h, (p.vacate vm source).hosts[source]? = some h := by
    rw [hget, if_pos (.inl rfl),
      List.getElem?_eq_getElem ((hp.registered vm).placed v source hv hs)]
    exact ⟨_, rfl⟩
  obtain rfl : (p.destroy vm).2 = q := Except.ok.inj hq
  rw [destroy_of_placed hloc]
  intro hwait
  -- the host that is looked at again is the one that the machine resides on, not the target
  obtain ⟨h', hh', -, hfull⟩ := hwait t <| (contains_switchOffIfPending hhsource t).mpr
    ⟨by rwa [vacate_pendingOff], fun htarget => hne htarget.1.symm⟩
  rw [getElem?_switchOffIfPending hhsource, if_neg fun htarget => hne htarget.1.symm, hget,
    if_pos (.inr hmig), hh] at hh'
  cases hh'
  obtain ⟨k, hseat⟩ := Host.isEmpty_eq_false_iff.mp hfull
  rw [Host.entry_remove] at hseat
  split at hseat
  · contradiction
  · rename_i hk
    rw [hothers k hk] at hseat
    contradiction

/-- After an operation every host that waits is on and holds a machine, except if the operation
strands one. -/
theorem waitsOccupied_iff_not_strands (hp : p.Reachable) (hwait : p.WaitsOccupied)
    {op : Operation α} (hop : op.IsAdmissible) (hq : p.perform op = .ok q) :
    q.WaitsOccupied ↔ ¬ p.Strands op := by
  have hbook := bookkeeping_of_reachable hp
  refine ⟨fun hq' hstrands => not_waitsOccupied_of_strands hbook hstrands hq hq', fun hstays => ?_⟩
  intro i hi
  obtain ⟨h, hh, hfull⟩ := tidy_perform hbook hwait hstays hq i (by simp) hi
  refine ⟨h, hh, ?_, hfull⟩
  by_cases hon : h.isActive = true
  · exact hon
  · -- hosts that are off hold no machine
    obtain ⟨k, hseat⟩ := Host.isEmpty_eq_false_iff.mp hfull
    rw [(hbook.perform hop hq).occupied i h hh (Bool.eq_false_iff.mpr hon) k] at hseat
    contradiction

/-! ## Runs -/

/-- Throughout a run every host that waits is on and holds a machine, exactly if no operation of the
run strands a host. -/
theorem waitsOccupied_throughout_iff {ops : List (Operation α)} {time : α} {size : Nat}
    (hops : ∀ op ∈ ops, op.IsAdmissible) :
    (∀ n q, (Pool.new time size).performAll (ops.take n) = .ok q → q.WaitsOccupied)
      ↔ ∀ n op q, ops[n]? = some op → (Pool.new time size).performAll (ops.take n) = .ok q →
        ¬ q.Strands op := by
  have hreach : ∀ {n : Nat} {q : Pool α}, (Pool.new time size).performAll (ops.take n) = .ok q →
      q.Reachable := fun hq =>
    (Reachable.new time size).performAll (fun op hop => hops op (List.mem_of_mem_take hop)) hq
  constructor
  · intro hwait n op q hop hq hstrands
    -- an operation that strands a host is a destruction, which has a result
    obtain ⟨r, hr⟩ : ∃ r, q.perform op = .ok r := by
      cases op <;> try exact hstrands.elim
      exact ⟨_, rfl⟩
    refine not_waitsOccupied_of_strands (bookkeeping_of_reachable (hreach hq)) hstrands hr ?_
    apply hwait (n + 1) r
    rw [List.take_add_one, hop]
    exact performAll_concat.mpr ⟨q, hq, hr⟩
  · intro hstays n
    induction n with
    | zero =>
      intro q hq i hi
      obtain rfl : Pool.new time size = q := Except.ok.inj hq
      contradiction
    | succ n ih =>
      intro q hq
      rw [List.take_add_one] at hq
      cases hop : ops[n]? with
      | none =>
        rw [hop, Option.toList_none, List.append_nil] at hq
        exact ih q hq
      | some op =>
        rw [hop] at hq
        obtain ⟨r, hr, hq⟩ := performAll_concat.mp hq
        exact (waitsOccupied_iff_not_strands (hreach hr) (ih r hr)
          (hops op (List.mem_of_getElem? hop)) hq).mpr (hstays n op r hop hr)

/-- The sample, with the second host marked to be switched off and its machine on the way to the
third one. -/
def markingRun : List (Operation α) :=
  sampleRun ++ [.execute ⟨[(12, 2)], .ofList [1]⟩]

/-- Throughout a run that destroys no machine, hosts that wait are occupied; at its end one waits.
-/
theorem waitsOccupied_throughout_iff_sample : ∃ q : Pool Binary64,
    (Pool.new 0 5).performAll markingRun = .ok q ∧ q.pendingOff.contains 1 = true
      ∧ q.WaitsOccupied := by
  have hops : ∀ op ∈ (markingRun : List (Operation Binary64)), op.IsAdmissible := by
    intro op hop
    rcases List.mem_append.mp hop with hop | hop
    · exact isAdmissible_of_mem_sampleRun (by decide +kernel) op hop
    · rw [List.mem_singleton.mp hop]
      trivial
  have hstays : ∀ op ∈ (markingRun : List (Operation Binary64)), ∀ q : Pool Binary64,
      ¬ q.Strands op := by
    simp [markingRun, sampleRun, Strands]
  obtain ⟨q, hq, -, hwaits⟩ := exists_of_run (fun q => q.pendingOff.contains 1) hops
    (by decide +kernel)
  have hthroughout : ∀ n q, (new 0 5).performAll ((markingRun : List (Operation Binary64)).take n)
      = .ok q → q.WaitsOccupied :=
    (waitsOccupied_throughout_iff hops).mpr
      fun n op q hop _ => hstays op (List.mem_of_getElem? hop) q
  refine ⟨q, hq, hwaits, hthroughout (markingRun : List (Operation Binary64)).length q ?_⟩
  rw [List.take_length]
  exact hq

/-- A run that marks the target of an unfinished migration and then destroys the machine. -/
def strandingRun : List (Operation α) :=
  [.addHost (sampleHost "a"), .addHost (sampleHost "b"), .addVm (sampleVm 1 1000), .create 1 0,
    .startMigration 1 1, .execute ⟨[], .ofList [1]⟩, .destroy 1]

/-- Not every host that waits holds a machine: at the end of this run one waits, is on and is
empty. -/
theorem exists_stranded_host : ∃ (q : Pool Binary64) (h : Host Binary64), q.Reachable
    ∧ (Pool.new 0 5).performAll strandingRun = .ok q ∧ q.pendingOff.contains 1 = true
    ∧ q.hosts[1]? = some h ∧ h.isActive = true ∧ h.isEmpty = true ∧ ¬ q.WaitsOccupied := by
  have hhost : ∀ name, (sampleHost name : Host Binary64).IsFresh :=
    isFresh_sampleHost (by decide +kernel)
  have hops : ∀ op ∈ (strandingRun : List (Operation Binary64)), op.IsAdmissible := by
    simp [strandingRun, Operation.IsAdmissible, hhost, sampleVm, Vm.isWaiting_new]
  obtain ⟨q, hq, hreach, hcheck⟩ := exists_of_run (fun q => q.pendingOff.contains 1
    && q.hosts[1]?.any fun h => h.isActive && h.isEmpty) hops (by decide +kernel)
  simp only [Bool.and_eq_true, Option.any_eq_true] at hcheck
  obtain ⟨hwaits, h, hh, hon, hempty⟩ := hcheck
  refine ⟨q, h, hreach, hq, hwaits, hh, hon, hempty, fun hwait => ?_⟩
  obtain ⟨h', hh', -, hfull⟩ := hwait 1 hwaits
  obtain rfl := Option.some.inj (hh.symm.trans hh')
  exact Bool.false_ne_true (hfull.symm.trans hempty)

end Pool

end Datacenter
