import Datacenter.Binary64.Basic
import Datacenter.Proofs.Binary64.Rounding
import Datacenter.Proofs.Host.Moving
import Datacenter.Proofs.Pool.Evolution

/-!
# A migration is a move

There are two ways to bring a settled machine to another host. `Pool.relocate` migrates it, and the
migration is finished as soon as it has been started. `Pool.recreate` destroys it and creates it
again on the target. By `Pool.relocation_is_recreation` the one succeeds where the other does, and
all that tells the results apart is the time from which the age of the machine is counted.

## Shape of the proof

Either way the machine is handed over (`Pool.handOver`), and its former host is looked at once. What
a migration marks and sets down in between is gone in the end (`arrive_depart`), and the target is
the same by `Host.create?_eq_of_expect`. A machine that is destroyed is created after its former
host has been looked at, which makes no difference (`switchOffIfPending_place`).
-/

namespace Datacenter.Pool

variable {α : Type} [Scalar α] {p q : Pool α} {vm source target : Nat} {v : Vm α} {h : Host α}

/-- Moves a machine by a migration that is started and finished at once. -/
def relocate (p : Pool α) (vm target : Nat) : Except Fault (Bool × Pool α) := do
  let (started, p) ← p.startMigration vm target
  let (finished, p) := p.finishMigration vm
  return (started && finished, p)

/-- Moves a machine without a migration: it is destroyed, and created on the target. -/
def recreate (p : Pool α) (vm target : Nat) : Except Fault (Bool × Pool α) := do
  let (destroyed, p) := p.destroy vm
  let (created, p) ← p.create vm target
  return (destroyed && created, p)

/-! ## Handing over -/

/-- The pool once a machine has come to a host, which is `h` by now, and has the record `v`. -/
def place (p : Pool α) (vm : Nat) (v : Vm α) (target : Nat) (h : Host α) : Pool α :=
  { p with
    hosts := p.hosts.set target h
    vms := p.vms.insert vm v
    pendingOff := p.pendingOff.erase target }

/-- The pool once a machine has come to a host and has left its former one. -/
def handOver (p : Pool α) (vm : Nat) (v : Vm α) (source target : Nat) (h : Host α) : Pool α :=
  (p.place vm v target h).modifyHost source (·.remove vm)

omit [Scalar α] in
theorem modifyHost_place (hne : source ≠ target) (f : Host α → Host α) :
    (p.place vm v target h).modifyHost source f = (p.modifyHost source f).place vm v target h := by
  simp only [place, modifyHost, List.set_eq_modify, List.modify_modify_ne _ _ _ hne]

omit [Scalar α] in
/-- It makes no difference to the target whether another host is looked at before or after. -/
theorem switchOffIfPending_place (hne : source ≠ target) :
    (p.place vm v target h).switchOffIfPending source
      = (p.switchOffIfPending source).place vm v target h := by
  refine switchOffIfPending_apply (f := fun p => p.place vm v target h) ?_ ?_
  · simp [waitsEmpty, place, hne, List.getElem?_set_ne hne.symm]
  · have hpending := (IdMap.changesAt_erase target).comm (IdMap.changesAt_erase source) hne.symm
      p.pendingOff
    rw [switchOff, modifyHost_place hne]
    simp only [switchOff, place, hpending, modifyHost]

/-- The record of a machine may as well be changed when it is handed over. -/
theorem modifyVm_handOver (p : Pool α) (f : Vm α → Vm α) :
    ((p.handOver vm v source target h).switchOffIfPending source).modifyVm vm f
      = (p.handOver vm (f v) source target h).switchOffIfPending source := by
  have hlast := switchOffIfPending_apply (p := p.handOver vm v source target h)
    (f := fun q => q.modifyVm vm f) (i := source) rfl rfl
  rw [← hlast]
  simp only [handOver, place, modifyHost, modifyVm, IdMap.modify_insert]

/-! ## Over a migration -/

section

variable [Std.Irrefl (α := α) (· < ·)]

/-- A migration that is started and finished hands the machine over. -/
theorem arrive_depart (hne : source ≠ target) (hplaced : v.host = some source)
    (hsettled : v.migration = .settled) (hmig : p.migrations.find? vm = none) :
    (p.depart vm v source target h).arrive vm (leaving v) source target
      = p.handOver vm { v with host := some target } source target (h.receive vm) := by
  -- the mark of the machine goes with the machine
  have hleft : (fun h : Host α => (h.markLeaving vm).remove vm) = (·.remove vm) :=
    funext fun h => h.remove_markLeaving vm
  have hhosts : (((p.hosts.set target h).modify source (·.markLeaving vm)).modify source
      (·.remove vm)).modify target (·.receive vm)
        = (p.hosts.set target (h.receive vm)).modify source (·.remove vm) := by
    rw [List.modify_modify_eq, List.modify_modify_ne _ _ _ hne, List.set_eq_modify,
      List.modify_modify_eq, List.set_eq_modify]
    exact congrArg _ hleft
  have hrecord : { leaving v with migration := .settled }.moveTo (some target) p.time
      = { v with host := some target } := by
    simp [leaving, Vm.moveTo, hplaced, hsettled]
  have hvms : (p.vms.insert vm (leaving v)).insert vm { v with host := some target }
      = p.vms.insert vm { v with host := some target } := IdMap.insert_insert ..
  have hmigrations : (p.migrations.insert vm target).erase vm = p.migrations :=
    IdMap.erase_insert_self hmig target
  simp only [arrive, depart, handOver, place, modifyHost, hhosts, hvms, hmigrations, hrecord]

theorem relocate_granted_iff (hp : p.Bookkeeping) (hv : p.vms.find? vm = some v)
    (hplaced : v.host = some source) (hsettled : v.migration = .settled) (hne : source ≠ target)
    (hh : p.hosts[target]? = some h) :
    p.relocate vm target = .ok (true, q) ↔ h.check v = .ok .success
      ∧ ∃ h', h.expect (leaving v) (v.request p.time) = (true, h')
        ∧ q = (p.handOver vm { v with host := some target } source target
          (h'.receive vm)).switchOffIfPending source := by
  have hmig := (hp.settled_iff hv).mp hsettled
  -- a migration that has been started can be finished
  have hfinish : ∀ h', (p.depart vm v source target h').finishMigration vm
      = (true, (p.handOver vm { v with host := some target } source target
        (h'.receive vm)).switchOffIfPending source) := by
    intro h'
    have htarget : (p.depart vm v source target h').migrations.find? vm = some target := by
      simp [depart]
    have hrecord : (p.depart vm v source target h').vms.find? vm = some (leaving v) := by
      simp [depart]
    rw [finishMigration_of_some htarget hrecord hplaced,
      arrive_depart hne hplaced hsettled hmig]
  constructor
  · intro hq
    obtain ⟨⟨started, r⟩, hstart, hq⟩ := Fault.bind_eq_ok.mp hq
    cases started with
    | false => cases hq
    | true =>
      rcases startMigration_outcome hstart with
        ⟨hrefused, -⟩ | ⟨v', source', h₁, h', hv', hplaced', -, -, hh', hcheck, hexpect, hcase⟩
      · contradiction
      obtain rfl := Option.some.inj (hv.symm.trans hv')
      obtain rfl := Option.some.inj (hplaced.symm.trans hplaced')
      obtain rfl := Option.some.inj (hh.symm.trans hh')
      obtain ⟨hrefused, -⟩ | ⟨-, rfl⟩ := hcase
      · contradiction
      dsimp only at hq
      rw [hfinish] at hq
      cases hq
      exact ⟨hcheck, h', hexpect, rfl⟩
  · rintro ⟨hcheck, h', hexpect, rfl⟩
    have hstart := startMigration_of_check hv hplaced hsettled hne hh hcheck hexpect
    simp [relocate, hstart, hfinish, bind, Except.bind, pure, Except.pure]

end

/-! ## Over a destruction -/

/-- A settled machine is removed from its host only. -/
theorem vacate_of_settled (hmig : p.migrations.find? vm = none) :
    p.vacate vm source = (p.modifyHost source (·.remove vm)).modifyVm vm
      fun v => { v.moveTo none p.time with migration := .settled } := by
  have hnone : (p.modifyHost source (·.remove vm)).migrations.find? vm = none := hmig
  rw [vacate, cancelMigration, hnone]

theorem recreate_granted_iff (hp : p.Bookkeeping) (hv : p.vms.find? vm = some v)
    (hplaced : v.host = some source) (hsettled : v.migration = .settled) (hne : source ≠ target)
    (hh : p.hosts[target]? = some h) :
    p.recreate vm target = .ok (true, q) ↔ h.check v = .ok .success
      ∧ ∃ h', h.create? { v with host := none } (v.request p.time) = some h'
        ∧ q = (p.handOver vm { v with host := some target, startTime := p.time } source target
          h').switchOffIfPending source := by
  have hloc : p.location? vm = some source := by simp [location?, hv, hplaced]
  have hdestroy := destroy_of_placed hloc
  rw [vacate_of_settled ((hp.settled_iff hv).mp hsettled)] at hdestroy
  generalize hr : (p.modifyHost source (·.remove vm)).modifyVm vm
    (fun v => { v.moveTo none p.time with migration := .settled }) = r at hdestroy
  -- the target and the machine in between
  have hget : (r.switchOffIfPending source).hosts[target]? = some h := by
    rw [getElem?_switchOffIfPending_of_ne hne.symm, ← hr]
    show (p.modifyHost source _).hosts[target]? = _
    rw [getElem?_modifyHost, if_neg hne.symm, hh]
  have hrecord : (r.switchOffIfPending source).vms.find? vm = some { v with host := none } := by
    rw [switchOffIfPending_vms, ← hr, modifyVm, modifyHost, IdMap.find?_modify, if_pos rfl, hv,
      Option.map_some]
    simp [Vm.moveTo, hsettled]
  have htime : (r.switchOffIfPending source).time = p.time := by
    rw [switchOffIfPending_time, ← hr]
    rfl
  have hplace : ∀ h', (r.switchOffIfPending source).place vm
      ({ v with host := none }.moveTo (some target) (r.switchOffIfPending source).time) target h'
        = (p.handOver vm { v with host := some target, startTime := p.time } source target
          h').switchOffIfPending source := by
    intro h'
    rw [← switchOffIfPending_place hne, htime, handOver, modifyHost_place hne, ← hr]
    simp only [place, modifyVm, modifyHost, IdMap.insert_modify, Vm.moveTo]
    rfl
  constructor
  · intro hq
    rw [recreate, hdestroy] at hq
    obtain ⟨⟨created, r'⟩, hcreate, hq⟩ := Fault.bind_eq_ok.mp hq
    cases created with
    | false => cases hq
    | true =>
      rcases create_outcome hcreate with
        ⟨hrefused, -⟩ | ⟨-, v', h₁, h', hv', -, hh', hcheck, hcreate, rfl⟩
      · contradiction
      obtain rfl := Option.some.inj (hrecord.symm.trans hv')
      obtain rfl := Option.some.inj (hget.symm.trans hh')
      cases hq
      exact ⟨hcheck, h', htime ▸ hcreate, hplace h'⟩
  · rintro ⟨hcheck, h', hcreate, rfl⟩
    have hcreated := create_of_check hrecord rfl hget hcheck (htime ▸ hcreate)
    rw [← hplace]
    simp [recreate, hdestroy, hcreated, place, bind, Except.bind, pure, Except.pure]

/-! ## Both ways -/

/-- A settled machine can be migrated to another host exactly if it can be destroyed and created
there, and the pool comes out the same, but for the time from which the age of the machine is
counted. -/
theorem relocation_is_recreation [Std.Irrefl (α := α) (· < ·)] (hp : p.Reachable)
    (hv : p.vms.find? vm = some v) (hplaced : v.host = some source)
    (hsettled : v.migration = .settled) (hknown : target < p.hosts.length)
    (hne : target ≠ source) :
    ((∃ q, p.relocate vm target = .ok (true, q)) ↔ ∃ q, p.recreate vm target = .ok (true, q))
      ∧ ∀ q q', p.relocate vm target = .ok (true, q) → p.recreate vm target = .ok (true, q') →
        q' = q.modifyVm vm fun v => { v with startTime := p.time } := by
  have hbook := bookkeeping_of_reachable hp
  obtain ⟨h, hh⟩ : ∃ h, p.hosts[target]? = some h := ⟨_, List.getElem?_eq_getElem hknown⟩
  obtain rfl : v.id = vm := (hbook.registered vm).id v hv
  have hmigrate := fun q => relocate_granted_iff (q := q) hbook hv hplaced hsettled hne.symm hh
  have hcreate := fun q => recreate_granted_iff (q := q) hbook hv hplaced hsettled hne.symm hh
  -- the target has nothing on file of a settled machine that resides elsewhere
  have hblank : h.entry v.id = .blank := by
    refine hbook.entry_eq_blank hh ?_ ?_
    · simp [location?, hv, hplaced, hne.symm]
    · simp [(hbook.settled_iff hv).mp hsettled]
  have hfree : Vm.isMigrating { v with host := none } = false := by
    simp [Vm.isMigrating, hsettled]
  have htarget : h.create? { v with host := none } (v.request p.time)
      = if (h.expect (leaving v) (v.request p.time)).1 then
          some ((h.expect (leaving v) (v.request p.time)).2.receive v.id)
        else none := by
    have hreach := processor_of_reachable hp hh
    refine Host.create?_eq_of_expect (v := { v with host := none }) hreach hblank ?_ ?_ ?_ hfree _
      <;> rfl
  simp only [hmigrate, hcreate, htarget]
  constructor
  · constructor
    · rintro ⟨q, hcheck, h', hexpect, -⟩
      exact ⟨_, hcheck, h'.receive v.id, by simp [hexpect], rfl⟩
    · rintro ⟨q, hcheck, h', hexpect, -⟩
      split at hexpect
      · rename_i hadmitted
        exact ⟨_, hcheck, _, Prod.ext hadmitted rfl, rfl⟩
      · contradiction
  · rintro q q' ⟨-, h', hexpect, rfl⟩ ⟨-, h'', hexpect', rfl⟩
    simp only [hexpect, if_true, Option.some.injEq] at hexpect'
    rw [modifyVm_handOver, hexpect']

/-- The sample with its second host, on which one machine resides, marked to be switched off. -/
def vacatingRun : List (Operation α) :=
  sampleRun ++ [.execute ⟨[], .ofList [1]⟩]

/-- The machine on the marked host can be moved either way, and the host is off then. -/
theorem relocation_is_recreation_sample : ∃ p q q' : Pool Binary64,
    (Pool.new 0 5).performAll vacatingRun = .ok p ∧ p.pendingOff.contains 1 = true
      ∧ p.relocate 12 2 = .ok (true, q) ∧ q.hosts[1]?.any (!·.isActive) = true
      ∧ p.recreate 12 2 = .ok (true, q')
      ∧ q' = q.modifyVm 12 fun v => { v with startTime := p.time } := by
  have hops : ∀ op ∈ (vacatingRun : List (Operation Binary64)), op.IsAdmissible :=
    isAdmissible_of_mem_sampleRun_execute (by decide +kernel) _
  obtain ⟨p, hrun, hp, hcheck⟩ := exists_of_run (fun p => p.pendingOff.contains 1
    && (p.vms.find? 12).any (fun v => v.host == some 1 && v.migration == .settled)
    && decide (2 < p.hosts.length)
    && (p.relocate 12 2).toOption.any fun r => r.1 && r.2.hosts[1]?.any (!·.isActive))
    hops (by decide +kernel)
  simp only [Bool.and_eq_true, Option.any_eq_true, beq_iff_eq, decide_eq_true_eq] at hcheck
  obtain ⟨⟨⟨hmarked, v, hv, hplaced, hsettled⟩, hknown⟩, ⟨b, q⟩, hq, hgranted, hoff⟩ := hcheck
  obtain rfl : b = true := hgranted
  have hq := Fault.toOption_eq_some.mp hq
  obtain ⟨hiff, hsame⟩ :=
    relocation_is_recreation hp hv hplaced hsettled hknown (show (2 : Nat) ≠ 1 by decide)
  obtain ⟨q', hq'⟩ := hiff.mp ⟨q, hq⟩
  exact ⟨p, q, q', hrun, hmarked, hq, Option.any_eq_true _ _ |>.mpr hoff, hq', hsame q q' hq hq'⟩

end Datacenter.Pool
