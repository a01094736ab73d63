import Datacenter.Proofs.Host.Frame
import Datacenter.Proofs.Pool.Bookkeeping
import Datacenter.Proofs.Pool.Outcome

/-!
# Operations keep the bookkeeping

One lemma for every operation of a pool, and `Pool.bookkeeping_of_reachable` for all sequences of
them.

## Shape of the proof

Each lemma takes the operation apart by its outcome (`Datacenter/Proofs/Pool/Outcome.lean`). The
machine concerned had a blank entry on every host that it was not on, so its entries after the
operation are built from known ones, and the lemmas of the first section say that they agree with
the registry. The steps that `destroy` and `finishMigration` share with others, and the loops of
`execute` and `updateProcessing`, are lemmas of their own.
-/

namespace Datacenter

variable {α : Type} [Scalar α]

/-! ## Entries that agree -/

namespace Entry.Agrees

variable {e : Entry α} {i : Nat} {v : Vm α} {vm? : Option (Vm α)} {target? : Option Nat}
  {r : Request α}

/-- What the registry knows of a machine matters only as far as entries record it. -/
theorem congr_vm {f : Vm α → Vm α} (hhost : ∀ v, (f v).host = v.host)
    (hprov : ∀ v, Provision.of (f v) = .of v) (hspeed : ∀ v, (f v).speed = v.speed)
    (h : e.Agrees i vm? target?) :
    e.Agrees i (vm?.map f) target? where
  resident := by
    rw [h.resident]
    cases vm? <;> simp [hhost]
  incoming := h.incoming
  provision := by
    rw [h.provision]
    cases vm? <;> simp [hprov]
  request := h.request
  arriving := h.arriving
  leaving := h.leaving
  flagged := h.flagged
  asked r hr := by
    obtain ⟨v, hv, count, demand, hshare⟩ := h.asked r hr
    refine ⟨f v, by rw [hv]; rfl, count, demand, ?_⟩
    rw [hspeed, hshare]

/-- A new request may say that the machine migrates if it does. -/
theorem ask (h : e.Agrees i vm? target?) (hseat : e.isSeated = true)
    (hr : r.inMigration = true → target?.isSome = true) (hvm : vm? = some v) (hof : r.IsOf v) :
    (e.ask r).Agrees i vm? target? where
  resident := h.resident
  incoming := h.incoming
  provision := h.provision
  request := hseat.symm
  arriving := h.arriving
  leaving := h.leaving
  flagged := by
    intro r' hr' hflag
    cases hr'
    exact hr hflag
  asked := by
    intro r' hr'
    cases hr'
    exact ⟨v, hvm, hof⟩

/-- The entry of a machine that is created. -/
theorem create (hhost : v.host = some i) (hr : r.inMigration = false) (hof : r.IsOf v) :
    (Entry.blank.create (.of v) r).Agrees i (some v) none where
  resident := by simp [Entry.create, hhost]
  incoming := rfl
  provision := rfl
  request := rfl
  arriving := rfl
  leaving := rfl
  flagged := by
    intro r' hr' hflag
    cases hr'
    rw [hr] at hflag
    contradiction
  asked := by
    intro r' hr'
    cases hr'
    exact ⟨v, rfl, hof⟩

/-- The entry of a machine on the target of the migration that it starts. -/
theorem expect (hhost : v.host ≠ some i) (hof : r.IsOf v) :
    (Entry.blank.expect (.of v) r).Agrees i (some v) (some i) where
  resident := (decide_eq_false hhost).symm
  incoming := (decide_eq_true rfl).symm
  provision := rfl
  request := rfl
  arriving := rfl
  leaving := rfl
  flagged := fun _ _ _ => rfl
  asked := by
    intro r' hr'
    cases hr'
    exact ⟨v, rfl, hof⟩

/-- The entry of a machine on the host that it starts to leave. -/
theorem depart {t : Nat} (h : e.Agrees i (some v) none) (hhost : v.host = some i) (ht : t ≠ i) :
    e.depart.Agrees i (some (Pool.leaving v)) (some t) where
  resident := h.resident
  incoming := by
    rw [decide_eq_false (by simpa using ht)]
    exact h.incoming
  provision := h.provision
  request := h.request
  arriving := h.arriving
  leaving := by
    -- the machine resides here, so the flag is right to be set
    show true = (e.resident && true)
    rw [h.resident]
    simp [hhost]
  flagged := fun _ _ _ => rfl
  asked r hr := by
    obtain ⟨v', hv', hof⟩ := h.asked r hr
    cases hv'
    exact ⟨Pool.leaving v, rfl, hof⟩

/-- The entry of a machine on its host once the migration to it is over. -/
theorem receive (h : e.Agrees i vm? (some i)) (hvm : vm? = some v) (hhost : v.host ≠ some i)
    {v' : Vm α} (hhost' : v'.host = some i) (hprov : Provision.of v' = .of v)
    (hspeed : v'.speed = v.speed) :
    e.receive.Agrees i (some v') none where
  resident := by simp [Entry.receive, hhost']
  incoming := rfl
  provision := by
    have hseat : e.isSeated = true := by simp [isSeated, h.incoming]
    show e.provision = some (.of v')
    rw [h.provision, if_pos hseat, hvm, hprov]
    rfl
  request := by
    have hseat : e.isSeated = true := by simp [isSeated, h.incoming]
    show (e.request.map _).isSome = true
    rw [Option.isSome_map, h.request, hseat]
  arriving := rfl
  leaving := by
    have hres : e.resident = false := by
      rw [h.resident, hvm]
      simpa using hhost
    show e.leaving = (true && false)
    rw [h.leaving, hres]
    rfl
  flagged := by
    intro r hr hflag
    simp only [Entry.receive, Option.map_eq_some_iff] at hr
    obtain ⟨r', -, rfl⟩ := hr
    contradiction
  asked := by
    intro r hr
    obtain ⟨r', hr', rfl⟩ := Option.map_eq_some_iff.mp hr
    obtain ⟨w, hw, count, demand, hshare⟩ := h.asked r' hr'
    obtain rfl := Option.some.inj (hvm.symm.trans hw)
    exact ⟨v', rfl, count, demand, by rw [hspeed]; exact hshare⟩

/-- The entry of a machine whose size changes. -/
theorem reprovision (h : e.Agrees i (some v) target?) {v' : Vm α} (hhost : v'.host = v.host)
    (hspeed : v'.speed = v.speed) :
    (e.reprovision (.of v')).Agrees i (some v') target? where
  resident := by
    show e.resident = decide (v'.host = some i)
    rw [h.resident, hhost]
    rfl
  incoming := h.incoming
  provision := by
    show e.provision.map (fun _ => Provision.of v') = if e.isSeated then some (.of v') else none
    rw [h.provision]
    cases e.isSeated <;> rfl
  request := h.request
  arriving := h.arriving
  leaving := h.leaving
  flagged := h.flagged
  asked r hr := by
    obtain ⟨w, hw, count, demand, hshare⟩ := h.asked r hr
    cases hw
    exact ⟨v', rfl, count, demand, by rw [hspeed]; exact hshare⟩

end Entry.Agrees

/-! ## Hosts that adapt -/

namespace Host.Adapts

variable {h h' : Host α} {i : Nat} {v : Vm α} {time : α}

/-- The host on which a machine is created. -/
theorem create (hcreate : h.create? v (v.request time) = some h') (hblank : h.entry v.id = .blank)
    (hsettled : v.migration = .settled) :
    h.Adapts h' v.id i (some (v.moveTo (some i) time)) none where
  id := (unchanged_create? hcreate).1.id
  others k hk := by rw [entry_create? hcreate, if_neg hk]
  agrees := by
    rw [entry_create? hcreate, if_pos rfl, hblank]
    exact .create (v := v.moveTo (some i) time) rfl
      (by simp [Request.of, Vm.isMigrating, hsettled]) ⟨v.vcpus, _, rfl⟩
  occupied hoff := by
    rw [(unchanged_create? hcreate).2] at hoff
    contradiction

/-- The target of a migration that is started. -/
theorem expect (hexpect : h.expect (Pool.leaving v) (v.request time) = (true, h'))
    (hblank : h.entry v.id = .blank) (hhost : v.host ≠ some i) :
    h.Adapts h' v.id i (some (Pool.leaving v)) (some i) where
  id := (unchanged_expect hexpect).1.id
  others k hk := by
    have hentry := h.entry_expect (Pool.leaving v) (v.request time) k
    rw [hexpect] at hentry
    exact hentry.trans (if_neg hk)
  agrees := by
    have hentry := h.entry_expect (Pool.leaving v) (v.request time) v.id
    rw [hexpect] at hentry
    have hthere : h'.entry v.id = (h.entry v.id).expect (.of (Pool.leaving v))
        (.of (Pool.leaving v) (v.request time)) := hentry.trans (if_pos rfl)
    rw [hthere, hblank]
    exact .expect hhost ⟨v.vcpus, _, rfl⟩
  occupied hoff := by
    rw [(unchanged_expect hexpect).2] at hoff
    contradiction

/-- The source of a migration that is started. -/
theorem depart {t : Nat} (hagrees : (h.entry v.id).Agrees i (some v) none)
    (hhost : v.host = some i) (ht : t ≠ i) :
    h.Adapts (h.markLeaving v.id) v.id i (some (Pool.leaving v)) (some t) where
  id := (h.unchanged_markLeaving v.id).1.id
  others k hk := by rw [entry_markLeaving, if_neg hk]
  agrees := by
    rw [entry_markLeaving, if_pos rfl]
    exact hagrees.depart hhost ht
  occupied hoff := by
    rw [(h.unchanged_markLeaving v.id).2] at hoff
    rw [entry_markLeaving, if_pos rfl]
    exact ⟨hoff, fun hseat => hseat⟩

/-- The target of a migration that is finished. -/
theorem receive (hagrees : (h.entry v.id).Agrees i (some v) (some i)) (hhost : v.host ≠ some i) :
    h.Adapts (h.receive v.id) v.id i
      (some ({ v with migration := .settled }.moveTo (some i) time)) none := by
  have hincoming : (h.entry v.id).incoming = true := by simp [hagrees.incoming]
  obtain ⟨hsame, hactive⟩ := h.unchanged_receive v.id
  constructor
  case id => exact hsame.id
  case others =>
    intro k hk
    rw [entry_receive, if_neg fun hc => hk hc.1]
  case agrees =>
    rw [entry_receive, if_pos ⟨rfl, hincoming⟩]
    exact hagrees.receive rfl hhost rfl rfl rfl
  case occupied =>
    intro hoff
    refine ⟨hactive ▸ hoff, fun hseat => ?_⟩
    -- the machine had a seat before, since it was on its way
    rw [Entry.isSeated, hincoming, Bool.or_true] at hseat
    contradiction

end Host.Adapts

namespace Pool.Bookkeeping

variable {p q : Pool α} {b : Bool}

/-! ## Registry -/

theorem new (time : α) (historySize : Nat) : (Pool.new time historySize).Bookkeeping where
  hostId := fun _ _ hi => nomatch hi
  registered := fun _ =>
    { id := fun _ hv => nomatch hv
      placed := fun _ _ hv => nomatch hv
      target := fun _ ht => nomatch ht
      migration := fun _ hv => nomatch hv }
  agrees := fun _ _ hi => nomatch hi
  occupied := fun _ _ hi => nomatch hi

/-- Nothing is on file on a host that has not been in a pool. -/
theorem entry_of_isFresh {h : Host α} (hfresh : h.IsFresh) (k : Nat) : h.entry k = .blank := by
  cases hfresh with
  | new name capacities discipline overhead ram bandwidth storage unassigned fraction => rfl

omit [Scalar α] in
theorem registered_mono {m n k : Nat} {vm? : Option (Vm α)} {target? : Option Nat} (hmn : m ≤ n)
    (h : Registered m k vm? target?) : Registered n k vm? target? where
  id := h.id
  placed v i hv hi := Nat.lt_of_lt_of_le (h.placed v i hv hi) hmn
  target t ht := ⟨Nat.lt_of_lt_of_le (h.target t ht).1 hmn, (h.target t ht).2⟩
  migration := h.migration

theorem addHost (hp : p.Bookkeeping) {h : Host α} {id : Nat} (hfresh : h.IsFresh)
    (hq : p.addHost h = .ok (id, q)) : q.Bookkeeping := by
  obtain ⟨-, rfl⟩ := addHost_outcome hq
  -- every host is an old one, or it is the new one at the end
  have hcases : ∀ (i : Nat) (h' : Host α),
      (p.hosts ++ [{ h with id := p.hosts.length }.withHistory (.empty p.historySize)])[i]? = some h' →
      p.hosts[i]? = some h' ∨ i = p.hosts.length ∧ h'.id = i ∧ ∀ k, h'.entry k = .blank := by
    intro i h' hi
    rw [List.getElem?_append] at hi
    split at hi
    · exact .inl hi
    · rename_i hge
      rw [List.getElem?_singleton] at hi
      split at hi
      · rename_i hzero
        have hi' : i = p.hosts.length := by omega
        cases hi
        exact .inr ⟨hi', hi'.symm, fun k =>
          (Host.entry_congr rfl rfl rfl rfl k).trans (entry_of_isFresh hfresh k)⟩
      · contradiction
  constructor
  case hostId =>
    intro i h' hi
    rcases hcases i h' hi with hold | ⟨-, hid, -⟩
    · exact hp.hostId i h' hold
    · exact hid
  case registered =>
    intro k
    exact registered_mono (by simp) (hp.registered k)
  case agrees =>
    intro i h' hi k
    rcases hcases i h' hi with hold | ⟨rfl, -, hblank⟩
    · exact hp.agrees i h' hold k
    · rw [hblank k]
      refine .blank ?_ ?_
      · intro hs
        obtain ⟨v, hv, hs⟩ := Option.bind_eq_some_iff.mp hs
        exact Nat.lt_irrefl _ ((hp.registered k).placed v _ hv hs)
      · intro ht
        exact Nat.lt_irrefl _ ((hp.registered k).target _ ht).1
  case occupied =>
    intro i h' hi hoff k
    rcases hcases i h' hi with hold | ⟨-, -, hblank⟩
    · exact hp.occupied i h' hold hoff k
    · rw [hblank k]
      rfl

theorem addVm (hp : p.Bookkeeping) {vm : Vm α} (hwaiting : vm.IsWaiting)
    (hq : p.addVm vm = .ok (b, q)) : q.Bookkeeping := by
  rcases addVm_outcome hq with ⟨-, rfl⟩ | ⟨-, hnew, rfl⟩
  · exact hp
  have hloc : p.location? vm.id = none := by simp [location?, hnew]
  have hmig := hp.not_migrating hloc
  have hfind : (p.vms.insert vm.id (vm.withHistory (.empty p.historySize))).find? vm.id
      = some (vm.withHistory (.empty p.historySize)) := by simp
  refine hp.of_change vm.id rfl (fun k hk => ?_) (fun _ _ => rfl) (fun i h hi => ?_) ?_
  · simp [hk]
  · refine ⟨h, hi, .untouched (hp.entry_eq_blank hi (by simp [hloc]) (by simp [hmig])) ?_
      (by simp [hmig])⟩
    rw [hfind]
    simp [Vm.withHistory, hwaiting.host]
  · rw [hfind, hmig]
    refine .of_some rfl (fun i hi => ?_) (by simp) hwaiting.migration
    rw [show (vm.withHistory (.empty p.historySize)).host = vm.host from rfl, hwaiting.host] at hi
    contradiction

theorem setHostActive (hp : p.Bookkeeping) {id : Nat} {on : Bool}
    (hq : p.setHostActive id on = .ok (b, q)) : q.Bookkeeping := by
  rcases setHostActive_outcome hq with ⟨-, rfl⟩ | ⟨-, h, hh, hempty, hhosts, hvms, hmig, -⟩
  · exact hp
  refine hp.of_same_entries (by rw [hhosts]; simp [modifyHost]) (fun k => by rw [hvms])
    (fun k => by rw [hmig]) (fun i h' hi => ?_)
  rw [hhosts, getElem?_modifyHost] at hi
  split at hi
  · rename_i hid
    subst hid
    obtain ⟨_, hh', rfl⟩ := Option.map_eq_some_iff.mp hi
    obtain rfl := Option.some.inj (hh.symm.trans hh')
    refine ⟨h, hh, rfl, fun k => rfl, fun hoff => .inr (hempty hoff)⟩
  · exact ⟨h', hi, rfl, fun _ => rfl, .inl⟩

theorem failCore (hp : p.Bookkeeping) {id core : Nat} (hq : p.failCore id core = .ok q) :
    q.Bookkeeping := by
  obtain ⟨h, h', hh, hfail, rfl⟩ := failCore_outcome hq
  refine hp.of_same_entries (by simp [modifyHost]) (fun _ => rfl) (fun _ => rfl)
    (fun i h'' hi => ?_)
  rw [getElem?_modifyHost] at hi
  split at hi
  · rename_i hid
    subst hid
    obtain ⟨_, -, rfl⟩ := Option.map_eq_some_iff.mp hi
    obtain ⟨hsame, hactive⟩ := Host.unchanged_failCore hfail
    exact ⟨h, hh, hsame.id, Host.entry_failCore hfail, fun hoff => .inl (hactive ▸ hoff)⟩
  · exact ⟨h'', hi, rfl, fun _ => rfl, .inl⟩

theorem switchOffIfPending (hp : p.Bookkeeping) (i : Nat) :
    (p.switchOffIfPending i).Bookkeeping := by
  refine hp.of_same_entries (by simp) (fun k => by simp) (fun k => by simp) (fun j h' hj => ?_)
  obtain ⟨h, hh, rfl | ⟨-, hempty, rfl⟩⟩ := switchOffIfPending_host p i hj
  · exact ⟨h', hh, rfl, fun _ => rfl, .inl⟩
  · exact ⟨h, hh, rfl, fun _ => rfl, fun _ => .inr hempty⟩

/-! ## Creating and destroying -/

theorem create (hp : p.Bookkeeping) {vm host : Nat} (hq : p.create vm host = .ok (b, q)) :
    q.Bookkeeping := by
  rcases create_outcome hq with ⟨-, rfl⟩ | ⟨-, v, h, h', hv, hfree, hh, -, hcreate, rfl⟩
  · exact hp
  obtain rfl : v.id = vm := (hp.registered vm).id v hv
  have hloc : p.location? v.id = none := by simp [location?, hv, hfree]
  have hmig : p.migrations.find? v.id = none := hp.not_migrating hloc
  have hsettled : v.migration = .settled := (hp.settled_iff hv).mpr hmig
  have hblank : ∀ (i : Nat) (h : Host α), p.hosts[i]? = some h → h.entry v.id = .blank :=
    fun i h hi => hp.entry_eq_blank hi (by simp [hloc]) (by simp [hmig])
  have hfind : (p.vms.insert v.id (v.moveTo (some host) p.time)).find? v.id
      = some (v.moveTo (some host) p.time) := by simp
  refine hp.of_change v.id (by simp) (fun k hk => by simp [hk]) (fun _ _ => rfl)
    (fun i h₁ hi => ?_) ?_
  · rw [getElem?_setHost hh] at hi
    rw [hfind, hmig]
    split at hi
    case isTrue hhost =>
      obtain rfl := Option.some.inj hi
      obtain rfl := hhost
      exact ⟨h, hh, .create hcreate (hblank i h hh) hsettled⟩
    case isFalse hhost =>
      exact ⟨h₁, hi, .untouched (hblank i h₁ hi) (by simpa [Vm.moveTo] using Ne.symm hhost)
        (by simp)⟩
  · rw [hfind, hmig]
    refine .of_some rfl (fun i hi => ?_) (by simp) hsettled
    obtain rfl := Option.some.inj hi
    rw [List.length_set]
    exact (List.getElem?_eq_some_iff.mp hh).1

/-- A machine that has left the pool's hosts is on file on none of them. -/
theorem vacated (hp : p.Bookkeeping) {vm source : Nat} (hloc : p.location? vm = some source) :
    (p.vacate vm source).Bookkeeping := by
  obtain ⟨v, hv, hs⟩ := Option.bind_eq_some_iff.mp hloc
  have hne : p.migrations.find? vm ≠ some source := hp.target_ne hloc
  have hfind := find?_vacate_vms p vm source vm
  rw [if_pos rfl, hv, Option.map_some] at hfind
  have hmig : (p.vacate vm source).migrations.find? vm = none := by
    simp [vacate_migrations, IdMap.find?_erase]
  refine hp.of_change vm (p.vacate_length vm source) (fun k hk => ?_) (fun k hk => ?_)
    (fun i h' hi => ?_) ?_
  · rw [find?_vacate_vms, if_neg hk]
  · rw [vacate_migrations, IdMap.find?_erase, if_neg hk]
  · rw [getElem?_vacate hne] at hi
    rw [hfind, hmig]
    split at hi
    case isTrue hon =>
      obtain ⟨h, hh, rfl⟩ := Option.map_eq_some_iff.mp hi
      exact ⟨h, hh, .remove (by simp [Vm.moveTo]) (by simp)⟩
    case isFalse hoff =>
      -- the host is neither the source nor the target, so it never knew the machine
      rw [not_or] at hoff
      have hblank : h'.entry vm = .blank :=
        hp.entry_eq_blank hi (by simpa [hloc] using Ne.symm hoff.1) hoff.2
      exact ⟨h', hi, .untouched hblank (by simp [Vm.moveTo]) (by simp)⟩
  · rw [hfind, hmig]
    exact .of_some ((hp.registered vm).id v hv) (fun _ hi => nomatch hi) (by simp) rfl

theorem destroy (hp : p.Bookkeeping) (vm : Nat) : (p.destroy vm).2.Bookkeeping := by
  cases hloc : p.location? vm with
  | none =>
    rw [destroy_of_not_placed hloc]
    exact hp
  | some source =>
    rw [destroy_of_placed hloc]
    exact switchOffIfPending (hp.vacated hloc) source

/-! ## Migrations -/

/-- A target that has refused a machine keeps nothing of it: what is struck from its ledger was not
in it. -/
theorem refused (hp : p.Bookkeeping) {v : Vm α} {target : Nat} {h h' : Host α} {time : α}
    (hh : p.hosts[target]? = some h) (hblank : h.entry v.id = .blank)
    (hexpect : h.expect (leaving v) (v.request time) = (false, h')) :
    Bookkeeping { p with hosts := p.hosts.set target h' } := by
  obtain ⟨hsame, hactive⟩ := Host.unchanged_expect hexpect
  refine hp.of_same_entries (by simp) (fun _ => rfl) (fun _ => rfl) (fun i h₁ hi => ?_)
  rw [getElem?_setHost hh] at hi
  split at hi
  case isTrue hhost =>
    obtain rfl := Option.some.inj hi
    obtain rfl := hhost
    refine ⟨h, hh, hsame.id, fun k => ?_, fun hoff => .inl (by simpa [hoff] using hactive.symm)⟩
    have hentry := h.entry_expect (leaving v) (v.request time) k
    rw [hexpect] at hentry
    rw [hentry]
    split
    · rename_i hk
      rw [hk, show (leaving v).id = v.id from rfl, hblank]
      rfl
    · rfl
  case isFalse => exact ⟨h₁, hi, rfl, fun _ => rfl, .inl⟩

/-- A machine that starts to migrate is on file on both hosts. -/
theorem departed (hp : p.Bookkeeping) {v : Vm α} {source target : Nat} {h h' : Host α} {time : α}
    (hv : p.vms.find? v.id = some v) (hs : v.host = some source)
    (hsettled : v.migration = .settled) (hne : source ≠ target)
    (hh : p.hosts[target]? = some h)
    (hexpect : h.expect (leaving v) (v.request time) = (true, h')) :
    (p.depart v.id v source target h').Bookkeeping := by
  have hloc : p.location? v.id = some source := by simp [location?, hv, hs]
  have hmig : p.migrations.find? v.id = none := (hp.settled_iff hv).mp hsettled
  have hfind : (p.depart v.id v source target h').vms.find? v.id = some (leaving v) := by
    simp [depart]
  have htarget : (p.depart v.id v source target h').migrations.find? v.id = some target := by
    simp [depart]
  have hlength : (p.depart v.id v source target h').hosts.length = p.hosts.length := by
    simp [depart, modifyHost]
  -- before the migration the machine was on file on its source only
  have hblank : ∀ (i : Nat) (h : Host α), p.hosts[i]? = some h → i ≠ source →
      h.entry v.id = .blank := fun i h hi hne =>
    hp.entry_eq_blank hi (by simpa [hloc] using Ne.symm hne) (by simp [hmig])
  refine hp.of_change v.id hlength (fun k hk => by simp [depart, hk])
    (fun k hk => by simp [depart, hk]) (fun i h₁ hi => ?_) ?_
  · rw [getElem?_depart hh hne] at hi
    rw [hfind, htarget]
    split at hi
    case isTrue hhost =>
      obtain rfl := Option.some.inj hi
      obtain rfl := hhost
      exact ⟨h, hh, .expect hexpect (hblank i h hh (Ne.symm hne)) (by simpa [hs] using hne)⟩
    case isFalse hhost =>
      split at hi
      case isTrue hleft =>
        obtain ⟨h₂, hh₂, rfl⟩ := Option.map_eq_some_iff.mp hi
        obtain rfl := hleft
        have hagrees := hp.agrees i h₂ hh₂ v.id
        rw [hv, hmig] at hagrees
        exact ⟨h₂, hh₂, .depart hagrees hs (Ne.symm hne)⟩
      case isFalse hleft =>
        exact ⟨h₁, hi, .untouched (hblank i h₁ hi hleft)
          (by simpa [leaving, hs] using Ne.symm hleft) (by simpa using Ne.symm hhost)⟩
  · rw [hfind, htarget, hlength]
    refine .of_some rfl (fun i hi => (hp.registered v.id).placed v i hv hi) (fun t ht => ?_) rfl
    obtain rfl := Option.some.inj ht
    exact ⟨(List.getElem?_eq_some_iff.mp hh).1, source, hs, hne⟩

theorem startMigration (hp : p.Bookkeeping) {vm target : Nat}
    (hq : p.startMigration vm target = .ok (b, q)) : q.Bookkeeping := by
  rcases startMigration_outcome hq with ⟨-, rfl⟩ | ⟨v, source, h, h', hv, hs, hsettled, hne, hh, -,
    hexpect, hform⟩
  · exact hp
  obtain rfl : v.id = vm := (hp.registered vm).id v hv
  rcases hform with ⟨rfl, rfl⟩ | ⟨rfl, rfl⟩
  · refine hp.refused hh (hp.entry_eq_blank hh ?_ ?_) hexpect
    · simpa [location?, hv, hs] using hne
    · simp [(hp.settled_iff hv).mp hsettled]
  · exact hp.departed hv hs hsettled hne hh hexpect

/-- A machine that has arrived is on file on its new host only. -/
theorem arrived (hp : p.Bookkeeping) {v : Vm α} {source target : Nat}
    (hmig : p.migrations.find? v.id = some target) (hv : p.vms.find? v.id = some v)
    (hs : v.host = some source) (hne : source ≠ target) :
    (p.arrive v.id v source target).Bookkeeping := by
  have hloc : p.location? v.id = some source := by simp [location?, hv, hs]
  have hfind : (p.arrive v.id v source target).vms.find? v.id
      = some ({ v with migration := .settled }.moveTo (some target) p.time) := by
    simp [arrive, modifyHost]
  have htarget : (p.arrive v.id v source target).migrations.find? v.id = none := by
    simp [arrive, modifyHost, IdMap.find?_erase]
  refine hp.of_change v.id (by simp [arrive, modifyHost])
    (fun k hk => by simp [arrive, modifyHost, hk])
    (fun k hk => by simp [arrive, modifyHost, IdMap.find?_erase, hk]) (fun i h' hi => ?_) ?_
  · rw [getElem?_arrive hne] at hi
    rw [hfind, htarget]
    split at hi
    case isTrue hhost =>
      obtain ⟨h, hh, rfl⟩ := Option.map_eq_some_iff.mp hi
      obtain rfl := hhost
      have hagrees := hp.agrees i h hh v.id
      rw [hv, hmig] at hagrees
      exact ⟨h, hh, .receive hagrees (by simpa [hs] using hne)⟩
    case isFalse hhost =>
      have hloc' : (some ({ v with migration := .settled }.moveTo (some target) p.time)).bind
          (·.host) ≠ some i := by simpa [Vm.moveTo] using Ne.symm hhost
      split at hi
      case isTrue hleft =>
        obtain ⟨h, hh, rfl⟩ := Option.map_eq_some_iff.mp hi
        exact ⟨h, hh, .remove hloc' (by simp)⟩
      case isFalse hleft =>
        have hblank : h'.entry v.id = .blank :=
          hp.entry_eq_blank hi (by simpa [hloc] using Ne.symm hleft)
            (by simpa [hmig] using Ne.symm hhost)
        exact ⟨h', hi, .untouched hblank hloc' (by simp)⟩
  · rw [hfind, htarget]
    refine .of_some rfl (fun i hi => ?_) (by simp) rfl
    obtain rfl := Option.some.inj hi
    simpa [arrive, modifyHost] using ((hp.registered v.id).target target hmig).1

theorem finishMigration (hp : p.Bookkeeping) (vm : Nat) :
    (p.finishMigration vm).2.Bookkeeping := by
  cases hmig : p.migrations.find? vm with
  | none =>
    rw [finishMigration_of_none hmig]
    exact hp
  | some target =>
    obtain ⟨-, v, source, hv, hs, hne⟩ := (hp.registered vm).target target hmig
    obtain rfl : v.id = vm := (hp.registered vm).id v hv
    rw [finishMigration_of_some hmig hv hs]
    exact switchOffIfPending (hp.arrived hmig hv hs hne) source

/-! ## Scaling and processing -/

/-- A machine has a seat on every host it runs on. -/
theorem isSeated_of_mem_hostsOf (hp : p.Bookkeeping) {v : Vm α} (hv : p.vms.find? v.id = some v)
    {i : Nat} {h : Host α} (hh : p.hosts[i]? = some h) (hon : i ∈ p.hostsOf v) :
    (h.entry v.id).isSeated = true := by
  have hagrees := hp.agrees i h hh v.id
  rw [Entry.isSeated, hagrees.resident, hagrees.incoming, hv]
  unfold hostsOf at hon
  split at hon
  · rename_i source hs
    rcases List.mem_cons.mp hon with rfl | ht
    · simp [hs]
    · simp [Option.mem_toList.mp ht]
  · contradiction

/-- Asking again, admitted or refused, keeps the bookkeeping. -/
theorem update (hp : p.Bookkeeping) {v : Vm α} (hv : p.vms.find? v.id = some v) {i : Nat}
    (hon : i ∈ p.hostsOf v) (time : α) :
    (p.modifyHost i (·.update v (v.request time))).Bookkeeping := by
  refine hp.of_change v.id (by simp [modifyHost]) (fun _ _ => rfl) (fun _ _ => rfl)
    (fun j h' hj => ?_) (by simpa [modifyHost] using hp.registered v.id)
  rw [getElem?_modifyHost] at hj
  split at hj
  case isTrue hi =>
    subst hi
    obtain ⟨h, hh, rfl⟩ := Option.map_eq_some_iff.mp hj
    obtain ⟨hsame, hactive⟩ := h.unchanged_update v (v.request time)
    have hagrees := hp.agrees j h hh v.id
    have hseat := hp.isSeated_of_mem_hostsOf hv hh hon
    -- the request says that the machine migrates exactly if its record does
    have hflag : (Request.of v (v.request time)).inMigration = true →
        (p.migrations.find? v.id).isSome = true := by
      intro hflag
      cases ht : p.migrations.find? v.id with
      | some t => rfl
      | none => simp [Request.of, Vm.isMigrating, (hp.settled_iff hv).mpr ht] at hflag
    refine ⟨h, hh, hsame.id, fun k hk => ?_, ?_, fun hoff => ⟨hactive ▸ hoff, fun hfree => ?_⟩⟩
    · rcases h.entry_update v (v.request time) k with hold | ⟨hkv, -⟩
      · exact hold
      · exact absurd hkv hk
    · rcases h.entry_update v (v.request time) v.id with hold | ⟨-, hask⟩
      · rw [hold]
        exact hagrees
      · rw [hask]
        exact hagrees.ask hseat hflag hv (Request.isOf_of v time)
    · rw [hseat] at hfree
      contradiction
  case isFalse =>
    exact ⟨h', hj, rfl, fun _ _ => rfl, hp.agrees j h' hj v.id, fun hoff => ⟨hoff, id⟩⟩

/-- A change of the size of a machine keeps the bookkeeping if the one host of the machine follows
it. -/
theorem resized (hp : p.Bookkeeping) {v v' : Vm α} {i : Nat} {h h' : Host α}
    (hv : p.vms.find? v.id = some v) (hi : v.host = some i) (hh : p.hosts[i]? = some h)
    (hsettled : v.migration = .settled)
    (hrecord : v'.id = v.id ∧ v'.host = v.host ∧ v'.migration = v.migration)
    (hsame : h.Unchanged h' ∧ h'.isActive = h.isActive)
    (hothers : ∀ k, k ≠ v.id → h'.entry k = h.entry k)
    (hagrees : (h.entry v.id).Agrees i (some v) none → (h'.entry v.id).Agrees i (some v') none) :
    Bookkeeping { p with hosts := p.hosts.set i h', vms := p.vms.insert v.id v' } := by
  obtain ⟨hid, hhost, hmigration⟩ := hrecord
  have hmig : p.migrations.find? v.id = none := (hp.settled_iff hv).mp hsettled
  have hloc : p.location? v.id = some i := by simp [location?, hv, hi]
  refine hp.of_change v.id (by simp) (fun k hk => by simp [hk]) (fun _ _ => rfl)
    (fun j h₁ hj => ?_) ?_
  · rw [getElem?_setHost hh] at hj
    rw [IdMap.find?_insert, if_pos rfl, hmig]
    split at hj
    case isTrue hji =>
      subst hji
      cases hj
      refine ⟨h, hh, hsame.1.id, hothers, ?_, fun hoff => ?_⟩
      · have hold := hp.agrees j h hh v.id
        rw [hv, hmig] at hold
        exact hagrees hold
      · have hoff : h.isActive = false := hsame.2 ▸ hoff
        have hseat := hp.occupied j h hh hoff v.id
        have hres := (hp.agrees j h hh v.id).resident
        rw [hv, Option.bind_some, hi, decide_eq_true rfl] at hres
        simp [Entry.isSeated, hres] at hseat
    case isFalse hji =>
      have hblank : h₁.entry v.id = .blank :=
        hp.entry_eq_blank hj (by simpa [hloc] using Ne.symm hji) (by simp [hmig])
      exact ⟨h₁, hj, .untouched hblank (by simpa [hhost, hi] using Ne.symm hji) (by simp)⟩
  · rw [IdMap.find?_insert, if_pos rfl, hmig, List.length_set]
    refine .of_some hid (fun j hj => ?_) (by simp) (by rw [hmigration, hsettled]; rfl)
    exact (hp.registered v.id).placed v j hv (hhost ▸ hj)

theorem scale (hp : p.Bookkeeping) {vm : Nat} {resource : Resource} {delta : Int}
    (hq : p.scale vm resource delta = .ok (b, q)) : q.Bookkeeping := by
  rcases scale_outcome hq with rfl | ⟨v, host, h, hv, hhost, hsettled, hh, hform⟩
  · exact hp
  have hid : v.id = vm := (hp.registered vm).id v hv
  subst hid
  rcases hform with ⟨count, h', -, hgranted, rfl⟩ | ⟨-, rfl⟩ | ⟨ram, bandwidth, -, -, -, rfl⟩
  case inl =>
    have hentry := Host.entry_admit? hgranted
    refine hp.resized hv hhost hh hsettled ⟨rfl, rfl, rfl⟩ (Host.unchanged_admit? hgranted)
      (fun k hk => by rw [hentry, if_neg hk]) (fun hold => ?_)
    rw [hentry, if_pos rfl]
    have hseat : (h.entry v.id).isSeated = true := by
      simp [Entry.isSeated, hold.resident, hhost]
    refine (hold.ask hseat ?_ rfl ⟨count, _, rfl⟩).congr_vm
      (f := fun v => { v with vcpus := count }) (fun _ => rfl) (fun _ => rfl) (fun _ => rfl)
    simp [Request.of, Vm.isMigrating, hsettled]
  case inr.inl =>
    have hq := hp.update hv (i := host) (by simp [hostsOf, hhost]) p.time
    rwa [modifyHost_eq_set hh] at hq
  case inr.inr =>
    have hentry := h.entry_reprovision { v with ram := ram, bandwidth := bandwidth }
    refine hp.resized (v := v) hv hhost hh hsettled ⟨rfl, rfl, rfl⟩ (h.unchanged_reprovision _)
      (fun k hk => by rw [hentry, if_neg hk]) (fun hold => ?_)
    rw [hentry, if_pos rfl]
    exact hold.reprovision rfl rfl

theorem refresh (hp : p.Bookkeeping) {v : Vm α} (hv : p.vms.find? v.id = some v) :
    (p.refresh v).Bookkeeping ∧ (p.refresh v).vms = p.vms := by
  -- the hosts are those of the pool at the start, and refreshing changes no machine's place
  have hloop : ∀ (hosts : List Nat) (q : Pool α), (∀ i ∈ hosts, i ∈ q.hostsOf v) →
      q.Bookkeeping → q.vms = p.vms →
      (hosts.foldl (fun q i => q.modifyHost i (·.update v (v.request q.time))) q).Bookkeeping
      ∧ (hosts.foldl (fun q i => q.modifyHost i (·.update v (v.request q.time))) q).vms
        = p.vms := by
    intro hosts
    induction hosts with
    | nil =>
      intro q _ hq hvms
      exact ⟨hq, hvms⟩
    | cons i hosts ih =>
      intro q hon hq hvms
      refine ih _ (fun j hj => hon j (List.mem_cons_of_mem i hj)) ?_ hvms
      exact hq.update (hvms ▸ hv) (hon i List.mem_cons_self) _
  exact hloop (p.hostsOf v) p (fun _ hi => hi) hp rfl

theorem refreshAll (vms : List (Vm α)) (hp : p.Bookkeeping)
    (hvms : ∀ v ∈ vms, p.vms.find? v.id = some v) :
    (p.refreshAll vms).Bookkeeping ∧ (p.refreshAll vms).vms = p.vms := by
  induction vms generalizing p with
  | nil => exact ⟨hp, rfl⟩
  | cons v vms ih =>
    obtain ⟨hfirst, hsame⟩ := hp.refresh (hvms v List.mem_cons_self)
    obtain ⟨hall, hrest⟩ := ih hfirst fun w hw => by
      rw [hsame]
      exact hvms w (List.mem_cons_of_mem v hw)
    exact ⟨hall, hrest.trans hsame⟩

/-- Recording changes nothing of a machine that other records depend on. -/
theorem recordVm_fields (time : α) (v : Vm α) :
    (recordVm time v).id = v.id ∧ (recordVm time v).host = v.host
      ∧ (recordVm time v).migration = v.migration
      ∧ Provision.of (recordVm time v) = .of v ∧ (recordVm time v).speed = v.speed := by
  unfold recordVm
  split <;> exact ⟨rfl, rfl, rfl, rfl, rfl⟩

/-- Recording changes histories only. -/
theorem recordAll (hp : p.Bookkeeping) : p.recordAll.Bookkeeping := by
  have hvms : ∀ k, p.recordAll.vms.find? k = (p.vms.find? k).map (recordVm p.time) :=
    fun k => IdMap.find?_map ..
  have hhosts : ∀ (i : Nat) (h' : Host α), p.recordAll.hosts[i]? = some h' →
      ∃ h : Host α, p.hosts[i]? = some h ∧ h' = h.recordUtilization p.time := by
    intro i h' hi
    rw [show p.recordAll.hosts = p.hosts.map (·.recordUtilization p.time) from rfl,
      List.getElem?_map] at hi
    obtain ⟨h, hh, hh'⟩ := Option.map_eq_some_iff.mp hi
    exact ⟨h, hh, hh'.symm⟩
  constructor
  case hostId =>
    intro i h' hi
    obtain ⟨h, hh, rfl⟩ := hhosts i h' hi
    exact hp.hostId i h hh
  case registered =>
    intro k
    rw [hvms, show p.recordAll.hosts.length = p.hosts.length from List.length_map ..]
    have hreg := hp.registered k
    cases hv : p.vms.find? k with
    | none => rwa [hv] at hreg
    | some v =>
      obtain ⟨hid, hhost, hmigration, -⟩ := recordVm_fields p.time v
      refine .of_some (hid.trans (hreg.id v hv)) (fun i hi => ?_) (fun t ht => ?_) ?_
      · exact hreg.placed v i hv (hhost ▸ hi)
      · obtain ⟨hlt, v', s, hv', hs, hne⟩ := hreg.target t ht
        obtain rfl := Option.some.inj (hv.symm.trans hv')
        exact ⟨hlt, s, hhost ▸ hs, hne⟩
      · rw [hmigration]
        exact hreg.migration v hv
  case agrees =>
    intro i h' hi k
    obtain ⟨h, hh, rfl⟩ := hhosts i h' hi
    rw [hvms]
    exact (hp.agrees i h hh k).congr_vm (fun v => (recordVm_fields p.time v).2.1)
      (fun v => (recordVm_fields p.time v).2.2.2.1) (fun v => (recordVm_fields p.time v).2.2.2.2)
  case occupied =>
    intro i h' hi hoff k
    obtain ⟨h, hh, rfl⟩ := hhosts i h' hi
    exact hp.occupied i h hh hoff k

theorem updateProcessing (hp : p.Bookkeeping) : p.updateProcessing.Bookkeeping := by
  refine recordAll (hp.refreshAll p.vms.values fun v hv => ?_).1
  obtain ⟨k, hk⟩ := IdMap.mem_values_iff.mp hv
  rwa [(hp.registered k).id v hk]

/-! ## Plans and runs -/

theorem startAll {moves : List (Nat × Nat)} (hp : p.Bookkeeping) {count : Nat} {kept : IdSet}
    (hq : Pool.startAll moves p = .ok (count, kept, q)) : q.Bookkeeping :=
  startAll_induction hq (fun hstart hp => hp.startMigration hstart) hp

theorem markAllOff {kept : IdSet} {hosts : List Nat} (hp : p.Bookkeeping)
    (hq : Pool.markAllOff kept hosts p = .ok q) : q.Bookkeeping := by
  refine markAllOff_induction hq (fun {p i h} _ hp => ?_) hp
  have hmarked : ({ p with pendingOff := p.pendingOff.add i } : Pool α).Bookkeeping :=
    ⟨hp.hostId, hp.registered, hp.agrees, hp.occupied⟩
  exact hmarked.switchOffIfPending i

theorem execute (hp : p.Bookkeeping) {plan : MigrationPlan} {count : Nat}
    (hq : p.execute plan = .ok (count, q)) : q.Bookkeeping := by
  obtain ⟨kept, r, hstart, hmark⟩ := execute_outcome hq
  exact (hp.startAll hstart).markAllOff hmark

/-- One operation keeps the bookkeeping. -/
theorem perform (hp : p.Bookkeeping) {op : Operation α} (hop : op.IsAdmissible)
    (hq : p.perform op = .ok q) : q.Bookkeeping := by
  cases op with
  | setTime time =>
    obtain rfl := Except.ok.inj hq
    exact ⟨hp.hostId, hp.registered, hp.agrees, hp.occupied⟩
  | advance duration =>
    obtain rfl := Except.ok.inj hq
    exact ⟨hp.hostId, hp.registered, hp.agrees, hp.occupied⟩
  | addHost host =>
    obtain ⟨⟨id, _⟩, hdone, rfl⟩ := Fault.map_eq_ok.mp hq
    exact hp.addHost hop hdone
  | addVm vm =>
    obtain ⟨⟨b, _⟩, hdone, rfl⟩ := Fault.map_eq_ok.mp hq
    exact hp.addVm hop hdone
  | create vm host =>
    obtain ⟨⟨b, _⟩, hdone, rfl⟩ := Fault.map_eq_ok.mp hq
    exact hp.create hdone
  | destroy vm =>
    obtain rfl := Except.ok.inj hq
    exact hp.destroy vm
  | startMigration vm target =>
    obtain ⟨⟨b, _⟩, hdone, rfl⟩ := Fault.map_eq_ok.mp hq
    exact hp.startMigration hdone
  | finishMigration vm =>
    obtain rfl := Except.ok.inj hq
    exact hp.finishMigration vm
  | execute plan =>
    obtain ⟨⟨count, _⟩, hdone, rfl⟩ := Fault.map_eq_ok.mp hq
    exact hp.execute hdone
  | scale vm resource delta =>
    obtain ⟨⟨b, _⟩, hdone, rfl⟩ := Fault.map_eq_ok.mp hq
    exact hp.scale hdone
  | setHostActive host on =>
    obtain ⟨⟨b, _⟩, hdone, rfl⟩ := Fault.map_eq_ok.mp hq
    exact hp.setHostActive hdone
  | failCore host core => exact hp.failCore hq
  | updateProcessing =>
    obtain rfl := Except.ok.inj hq
    exact hp.updateProcessing

end Pool.Bookkeeping

/-- The records of every reachable pool are right. -/
theorem Pool.bookkeeping_of_reachable {p : Pool α} (hp : p.Reachable) :
    p.Bookkeeping := by
  induction hp with
  | new time historySize => exact .new time historySize
  | perform _ hop hq ih => exact ih.perform hop hq

end Datacenter
