import Datacenter.Proofs.Fault
import Datacenter.Proofs.IdMap
import Datacenter.Proofs.Pool.Reachable

/-!
# What an operation can do

For every operation of a pool, the forms its result can take: a refusal, which names the pool it
leaves, or a grant, with everything the operation has checked and the pool after it. Proofs about
pools go through these lemmas and do not open the operations again.

Two kinds of changes recur. `Pool.modifyHost` changes one host, and `Pool.switchOffIfPending`
switches off a host that is empty and changes nothing else.
-/

namespace Datacenter.Pool

open Fault

variable {α : Type} [Scalar α] {p q : Pool α} {b : Bool}

omit [Scalar α] in
/-- A refusal leaves the pool as it is. -/
theorem of_refusal (hq : (pure (false, p) : Except Fault (Bool × Pool α)) = .ok (b, q)) :
    b = false ∧ q = p := by
  obtain ⟨hb, hp⟩ := Prod.mk.inj (Except.ok.inj hq)
  exact ⟨hb.symm, hp.symm⟩

/-! ## Changes of one host -/

omit [Scalar α] in
theorem getElem?_modifyHost (p : Pool α) (i : Nat) (f : Host α → Host α) (j : Nat) :
    (p.modifyHost i f).hosts[j]? = if j = i then p.hosts[j]?.map f else p.hosts[j]? := by
  rw [modifyHost, List.getElem?_modify]
  by_cases h : i = j
  · subst h
    simp
  · rw [if_neg (Ne.symm h)]
    simp [h]

omit [Scalar α] in
theorem getElem?_setHost {hosts : List (Host α)} {i : Nat} {h : Host α} (hi : hosts[i]? = some h)
    (h' : Host α) (j : Nat) :
    (hosts.set i h')[j]? = if j = i then some h' else hosts[j]? := by
  have hlt : i < hosts.length := (List.getElem?_eq_some_iff.mp hi).1
  rw [List.getElem?_set]
  by_cases hij : i = j
  · subst hij
    simp [hlt]
  · rw [if_neg hij, if_neg (Ne.symm hij)]

omit [Scalar α] in
/-- A host can be changed through its value, too. -/
theorem modifyHost_eq_set {i : Nat} {h : Host α} (hi : p.hosts[i]? = some h)
    (f : Host α → Host α) : p.modifyHost i f = { p with hosts := p.hosts.set i (f h) } := by
  have hhosts : (p.modifyHost i f).hosts = p.hosts.set i (f h) := by
    apply List.ext_getElem?
    intro j
    rw [getElem?_modifyHost, getElem?_setHost hi]
    split
    · rename_i hj
      rw [hj, hi]
      rfl
    · rfl
  rw [← hhosts]
  rfl

omit [Scalar α] in
/-- A host changes in one way when it is switched off: it was empty, and it is off. -/
theorem switchOffIfPending_host (p : Pool α) (i : Nat) {j : Nat} {h' : Host α}
    (hj : (p.switchOffIfPending i).hosts[j]? = some h') :
    ∃ h, p.hosts[j]? = some h
      ∧ (h' = h ∨ j = i ∧ h.isEmpty = true ∧ h' = { h with isActive := false }) := by
  unfold switchOffIfPending at hj
  split at hj
  · rename_i h hi
    split at hj
    · rename_i hcond
      rw [show ({ p.modifyHost i fun h => { h with isActive := false } with
          pendingOff := p.pendingOff.erase i } : Pool α).hosts
        = (p.modifyHost i fun h => { h with isActive := false }).hosts from rfl,
        getElem?_modifyHost] at hj
      split at hj
      · rename_i hji
        subst hji
        rw [hi] at hj
        cases hj
        exact ⟨h, hi, .inr ⟨rfl, by simp_all, rfl⟩⟩
      · exact ⟨h', hj, .inl rfl⟩
    · exact ⟨h', hj, .inl rfl⟩
  · exact ⟨h', hj, .inl rfl⟩

omit [Scalar α] in
@[simp] theorem switchOffIfPending_vms (p : Pool α) (i : Nat) :
    (p.switchOffIfPending i).vms = p.vms := by
  unfold switchOffIfPending
  split
  · split <;> rfl
  · rfl

omit [Scalar α] in
@[simp] theorem switchOffIfPending_migrations (p : Pool α) (i : Nat) :
    (p.switchOffIfPending i).migrations = p.migrations := by
  unfold switchOffIfPending
  split
  · split <;> rfl
  · rfl

omit [Scalar α] in
@[simp] theorem switchOffIfPending_time (p : Pool α) (i : Nat) :
    (p.switchOffIfPending i).time = p.time := by
  unfold switchOffIfPending
  split
  · split <;> rfl
  · rfl

omit [Scalar α] in
@[simp] theorem switchOffIfPending_length (p : Pool α) (i : Nat) :
    (p.switchOffIfPending i).hosts.length = p.hosts.length := by
  unfold switchOffIfPending
  split
  · split
    · exact List.length_modify ..
    · rfl
  · rfl

omit [Scalar α] in
/-- Only the host that is looked at may change, and only if it waits and is empty. -/
theorem getElem?_switchOffIfPending {i : Nat} {h : Host α} (hh : p.hosts[i]? = some h) (j : Nat) :
    (p.switchOffIfPending i).hosts[j]?
      = if j = i ∧ p.pendingOff.contains i = true ∧ h.isEmpty = true then
          some { h with isActive := false }
        else p.hosts[j]? := by
  rw [switchOffIfPending, hh]
  dsimp only
  by_cases hoff : (p.pendingOff.contains i && h.isEmpty) = true
  · rw [if_pos hoff]
    rw [Bool.and_eq_true] at hoff
    show (p.modifyHost i fun h => { h with isActive := false }).hosts[j]? = _
    rw [getElem?_modifyHost]
    by_cases hj : j = i
    · subst hj
      simp [hoff, hh]
    · simp [hj]
  · rw [if_neg hoff]
    rw [Bool.and_eq_true] at hoff
    simp [hoff]

omit [Scalar α] in
/-- A host that is looked at waits no longer if it is empty. -/
theorem contains_switchOffIfPending {i : Nat} {h : Host α} (hh : p.hosts[i]? = some h) (j : Nat) :
    (p.switchOffIfPending i).pendingOff.contains j = true
      ↔ p.pendingOff.contains j = true ∧ ¬ (j = i ∧ h.isEmpty = true) := by
  rw [switchOffIfPending, hh]
  dsimp only
  by_cases hoff : (p.pendingOff.contains i && h.isEmpty) = true
  · rw [if_pos hoff]
    rw [Bool.and_eq_true] at hoff
    simp [hoff, and_comm]
  · rw [if_neg hoff]
    rw [Bool.and_eq_true] at hoff
    refine ⟨fun hj => ⟨hj, ?_⟩, And.left⟩
    rintro ⟨rfl, hempty⟩
    exact hoff ⟨hj, hempty⟩

/-! ## Looking at a host again -/

omit [Scalar α] in
/-- Whether a host waits to be switched off and is empty. -/
def waitsEmpty (p : Pool α) (i : Nat) : Bool :=
  p.pendingOff.contains i && p.hosts[i]?.any (·.isEmpty)

omit [Scalar α] in
/-- The pool with a host switched off that waits no longer. -/
def switchOff (p : Pool α) (i : Nat) : Pool α :=
  { p.modifyHost i fun h => { h with isActive := false } with pendingOff := p.pendingOff.erase i }

omit [Scalar α] in
theorem switchOffIfPending_eq (p : Pool α) (i : Nat) :
    p.switchOffIfPending i = if p.waitsEmpty i then p.switchOff i else p := by
  unfold switchOffIfPending waitsEmpty
  cases p.hosts[i]? with
  | none => simp
  | some h => rfl

omit [Scalar α] in
/-- A change may as well be made after a host has been looked at, if it makes no difference to
whether the host is switched off. -/
theorem switchOffIfPending_apply {f : Pool α → Pool α} {i : Nat}
    (hwaits : (f p).waitsEmpty i = p.waitsEmpty i) (hoff : (f p).switchOff i = f (p.switchOff i)) :
    (f p).switchOffIfPending i = f (p.switchOffIfPending i) := by
  rw [switchOffIfPending_eq, switchOffIfPending_eq, hwaits]
  split
  · exact hoff
  · rfl

omit [Scalar α] in
theorem getElem?_switchOffIfPending_of_ne {i j : Nat} (hne : j ≠ i) (p : Pool α) :
    (p.switchOffIfPending i).hosts[j]? = p.hosts[j]? := by
  rw [switchOffIfPending_eq]
  split
  · show (p.modifyHost i _).hosts[j]? = _
    rw [getElem?_modifyHost, if_neg hne]
  · rfl

/-! ## Registry -/

omit [Scalar α] in
theorem addHost_outcome {h : Host α} {id : Nat} (hq : p.addHost h = .ok (id, q)) :
    id = p.hosts.length ∧ q = { p with
      hosts := p.hosts ++ [{ h with id := p.hosts.length }.withHistory (.empty p.historySize)] } := by
  obtain ⟨history, hhistory, hq⟩ := bind_eq_ok.mp hq
  obtain ⟨-, rfl⟩ := UtilizationHistory.create_eq_ok.mp hhistory
  cases hq
  exact ⟨rfl, rfl⟩

omit [Scalar α] in
theorem addVm_outcome {vm : Vm α} (hq : p.addVm vm = .ok (b, q)) :
    b = false ∧ q = p
      ∨ b = true ∧ p.vms.find? vm.id = none
        ∧ q = { p with vms := p.vms.insert vm.id (vm.withHistory (.empty p.historySize)) } := by
  unfold addVm at hq
  split at hq
  · exact .inl (of_refusal hq)
  · rename_i hnew
    obtain ⟨history, hhistory, hq⟩ := bind_eq_ok.mp hq
    obtain ⟨-, rfl⟩ := UtilizationHistory.create_eq_ok.mp hhistory
    cases hq
    refine .inr ⟨rfl, ?_, rfl⟩
    simpa [IdMap.contains_eq_isSome] using hnew

omit [Scalar α] in
theorem setHostActive_outcome {id : Nat} {on : Bool} (hq : p.setHostActive id on = .ok (b, q)) :
    b = false ∧ q = p
      ∨ b = true ∧ ∃ h, p.hosts[id]? = some h ∧ (on = false → h.isEmpty = true)
        ∧ q.hosts = (p.modifyHost id fun h => { h with isActive := on }).hosts
        ∧ q.vms = p.vms ∧ q.migrations = p.migrations ∧ q.time = p.time := by
  obtain ⟨h, hh, hq⟩ := bind_eq_ok.mp hq
  split at hq
  · exact .inl (of_refusal hq)
  · rename_i hcond
    cases hq
    refine .inr ⟨rfl, h, elementAt_eq_ok.mp hh, ?_, ?_⟩
    · intro hoff
      simpa [hoff] using hcond
    · cases on <;> exact ⟨rfl, rfl, rfl, rfl⟩

omit [Scalar α] in
/-- Switching a host on or off makes no host wait. -/
theorem setHostActive_pendingOff {id : Nat} {on : Bool} (hq : p.setHostActive id on = .ok (b, q))
    {i : Nat} (hi : q.pendingOff.contains i = true) : p.pendingOff.contains i = true := by
  obtain ⟨h, -, hq⟩ := bind_eq_ok.mp hq
  split at hq
  · obtain ⟨-, rfl⟩ := of_refusal hq
    exact hi
  · cases hq
    cases on with
    | false => exact hi
    | true =>
      rw [if_pos rfl, IdMap.contains_erase, Bool.and_eq_true] at hi
      exact hi.2

theorem failCore_outcome {id core : Nat} (hq : p.failCore id core = .ok q) :
    ∃ h h', p.hosts[id]? = some h ∧ h.failCore core = .ok h'
      ∧ q = p.modifyHost id fun _ => h' := by
  obtain ⟨h, hh, hq⟩ := bind_eq_ok.mp hq
  obtain ⟨h', hh', hq⟩ := bind_eq_ok.mp hq
  cases hq
  exact ⟨h, h', elementAt_eq_ok.mp hh, hh', rfl⟩

/-! ## Creating and destroying -/

theorem create_outcome {vm host : Nat} (hq : p.create vm host = .ok (b, q)) :
    b = false ∧ q = p
      ∨ b = true ∧ ∃ v h h', p.vms.find? vm = some v ∧ v.host = none ∧ p.hosts[host]? = some h
        ∧ h.check v = .ok .success ∧ h.create? v (v.request p.time) = some h'
        ∧ q = { p with
          hosts := p.hosts.set host h'
          vms := p.vms.insert vm (v.moveTo (some host) p.time)
          pendingOff := p.pendingOff.erase host } := by
  unfold create at hq
  split at hq
  case h_2 => exact .inl (of_refusal hq)
  rename_i v hv
  split at hq
  · exact .inl (of_refusal hq)
  rename_i hplaced
  split at hq
  case h_2 => exact .inl (of_refusal hq)
  rename_i h hh
  obtain ⟨verdict, hverdict, hq⟩ := bind_eq_ok.mp hq
  split at hq
  · exact .inl (of_refusal hq)
  rename_i hsuccess
  split at hq
  case h_2 => exact .inl (of_refusal hq)
  rename_i h' hh'
  cases hq
  refine .inr ⟨rfl, v, h, h', hv, ?_, hh, ?_, hh', rfl⟩
  · simpa [Vm.isPlaced] using hplaced
  · rw [hverdict, show verdict = .success by simpa using hsuccess]

/-- A machine that waits for a place is created where it fits and the processor admits it. -/
theorem create_of_check {vm host : Nat} {v : Vm α} {h h' : Host α} (hv : p.vms.find? vm = some v)
    (hplaced : v.host = none) (hh : p.hosts[host]? = some h) (hcheck : h.check v = .ok .success)
    (hcreate : h.create? v (v.request p.time) = some h') :
    p.create vm host = .ok (true, { p with
      hosts := p.hosts.set host h'
      vms := p.vms.insert vm (v.moveTo (some host) p.time)
      pendingOff := p.pendingOff.erase host }) := by
  unfold create
  simp [hv, Vm.isPlaced, hplaced, hh, hcheck, hcreate, bind, Except.bind, pure, Except.pure]

theorem destroy_of_not_placed {vm : Nat} (h : p.location? vm = none) :
    p.destroy vm = (false, p) := by
  unfold destroy
  rw [h]

/-- The pool once a machine has left its host and the target of its migration, before its host is
looked at again. -/
def vacate (p : Pool α) (vm source : Nat) : Pool α :=
  ((p.modifyHost source (·.remove vm)).cancelMigration vm).modifyVm vm
    fun v => { v.moveTo none p.time with migration := .settled }

theorem destroy_of_placed {vm source : Nat} (h : p.location? vm = some source) :
    p.destroy vm = (true, (p.vacate vm source).switchOffIfPending source) := by
  have htime : ((p.modifyHost source (·.remove vm)).cancelMigration vm).time = p.time := by
    unfold cancelMigration
    split <;> rfl
  unfold destroy vacate
  rw [h]
  dsimp only
  rw [htime]

theorem find?_vacate_vms (p : Pool α) (vm source k : Nat) :
    (p.vacate vm source).vms.find? k
      = if k = vm then
          (p.vms.find? k).map fun v => { v.moveTo none p.time with migration := .settled }
        else p.vms.find? k := by
  have hvms : ((p.modifyHost source (·.remove vm)).cancelMigration vm).vms = p.vms := by
    unfold cancelMigration
    split <;> rfl
  rw [vacate, modifyVm, hvms, IdMap.find?_modify]

theorem vacate_migrations (p : Pool α) (vm source : Nat) :
    (p.vacate vm source).migrations = p.migrations.erase vm := by
  unfold vacate cancelMigration modifyVm modifyHost
  cases ht : p.migrations.find? vm with
  | none => rw [IdMap.erase_of_find?_eq_none ht]
  | some t => rfl

theorem vacate_pendingOff (p : Pool α) (vm source : Nat) :
    (p.vacate vm source).pendingOff = p.pendingOff := by
  unfold vacate cancelMigration modifyVm modifyHost
  cases p.migrations.find? vm <;> rfl

theorem vacate_length (p : Pool α) (vm source : Nat) :
    (p.vacate vm source).hosts.length = p.hosts.length := by
  unfold vacate cancelMigration modifyVm modifyHost
  cases p.migrations.find? vm <;> simp

/-- The machine is removed from the two hosts on which it may hold something. -/
theorem getElem?_vacate {vm source : Nat} (hne : p.migrations.find? vm ≠ some source) (i : Nat) :
    (p.vacate vm source).hosts[i]?
      = if i = source ∨ p.migrations.find? vm = some i then p.hosts[i]?.map (·.remove vm)
        else p.hosts[i]? := by
  have hhosts : (p.vacate vm source).hosts
      = ((p.modifyHost source (·.remove vm)).cancelMigration vm).hosts := rfl
  have hmig : (p.modifyHost source (·.remove vm)).migrations = p.migrations := rfl
  rw [hhosts, cancelMigration, hmig]
  cases ht : p.migrations.find? vm with
  | none =>
    rw [getElem?_modifyHost]
    simp
  | some t =>
    dsimp only
    rw [getElem?_modifyHost, getElem?_modifyHost]
    -- with one host as source and target the machine would be removed from it twice
    have hts : t ≠ source := fun h => hne (h ▸ ht)
    by_cases hi : i = t
    · simp [hi, hts]
    · simp [hi, Ne.symm hi]

/-! ## Migrations -/

omit [Scalar α] in
/-- A machine on its way out. -/
def leaving (v : Vm α) : Vm α :=
  { v with migration := .leaving }

/-- The pool once the target of a migration, which is `h` by now, expects the machine. -/
def depart (p : Pool α) (vm : Nat) (v : Vm α) (source target : Nat) (h : Host α) : Pool α :=
  { { p with hosts := p.hosts.set target h }.modifyHost source (·.markLeaving vm) with
    vms := p.vms.insert vm (leaving v)
    migrations := p.migrations.insert vm target
    pendingOff := p.pendingOff.erase target }

/-- The target expects the machine, and the source has it marked as leaving. -/
theorem getElem?_depart {vm source target : Nat} {v : Vm α} {h h' : Host α}
    (hh : p.hosts[target]? = some h) (hne : source ≠ target) (i : Nat) :
    (p.depart vm v source target h').hosts[i]?
      = if i = target then some h'
        else if i = source then p.hosts[i]?.map (·.markLeaving vm) else p.hosts[i]? := by
  have hhosts : (p.depart vm v source target h').hosts
      = ({ p with hosts := p.hosts.set target h' }.modifyHost source (·.markLeaving vm)).hosts :=
    rfl
  rw [hhosts, getElem?_modifyHost, getElem?_setHost hh]
  by_cases hi : i = target
  · simp [hi, Ne.symm hne]
  · simp [hi]

/-- A migration that is not started leaves the pool as it is, or it leaves a target whose processor
has refused the machine. -/
theorem startMigration_outcome {vm target : Nat} (hq : p.startMigration vm target = .ok (b, q)) :
    b = false ∧ q = p
      ∨ ∃ v source h h', p.vms.find? vm = some v ∧ v.host = some source ∧ v.migration = .settled
        ∧ source ≠ target ∧ p.hosts[target]? = some h ∧ h.check v = .ok .success
        ∧ h.expect (leaving v) (v.request p.time) = (b, h')
        ∧ (b = false ∧ q = { p with hosts := p.hosts.set target h' }
          ∨ b = true ∧ q = p.depart vm v source target h') := by
  unfold startMigration at hq
  split at hq
  case h_2 => exact .inl (of_refusal hq)
  rename_i v hv
  split at hq
  case h_2 => exact .inl (of_refusal hq)
  rename_i source hsource
  split at hq
  case isTrue => exact .inl (of_refusal hq)
  rename_i hfree
  split at hq
  case h_2 => exact .inl (of_refusal hq)
  rename_i h hh
  obtain ⟨verdict, hverdict, hq⟩ := bind_eq_ok.mp hq
  split at hq
  case isTrue => exact .inl (of_refusal hq)
  rename_i hsuccess
  have hverdict : h.check v = .ok .success := by
    rw [hverdict, show verdict = .success by simpa using hsuccess]
  simp only [Vm.isMigrating, Bool.or_eq_true, bne_iff_ne, ne_eq, beq_iff_eq, not_or,
    Decidable.not_not] at hfree
  cases hexpect : h.expect (leaving v) (v.request p.time) with
  | mk expected h' =>
    -- the operation has the record of the leaving machine spelled out
    have hexpect' : h.expect { v with migration := .leaving }
        (Vm.request { v with migration := .leaving } p.time) = (expected, h') := hexpect
    dsimp only at hq
    rw [hexpect'] at hq
    cases expected with
    | false =>
      cases hq
      exact .inr ⟨v, source, h, h', hv, hsource, hfree.1, hfree.2, hh, hverdict, hexpect,
        .inl ⟨rfl, rfl⟩⟩
    | true =>
      cases hq
      exact .inr ⟨v, source, h, h', hv, hsource, hfree.1, hfree.2, hh, hverdict, hexpect,
        .inr ⟨rfl, rfl⟩⟩

/-- The migration of a settled machine is started where it fits and the processor admits it. -/
theorem startMigration_of_check {vm source target : Nat} {v : Vm α} {h h' : Host α}
    (hv : p.vms.find? vm = some v) (hs : v.host = some source) (hsettled : v.migration = .settled)
    (hne : source ≠ target) (hh : p.hosts[target]? = some h) (hcheck : h.check v = .ok .success)
    (hexpect : h.expect (leaving v) (v.request p.time) = (true, h')) :
    p.startMigration vm target = .ok (true, p.depart vm v source target h') := by
  unfold startMigration
  have hexpect' : h.expect { v with migration := .leaving }
      (Vm.request { v with migration := .leaving } p.time) = (true, h') := hexpect
  -- the operation is simplified by where the machine resides, and the record with it
  simp only [hs] at hexpect'
  simp [hv, hs, Vm.isMigrating, hsettled, hne, hh, hcheck, hexpect', bind, Except.bind, pure,
    Except.pure, depart, leaving]

theorem finishMigration_of_none {vm : Nat} (h : p.migrations.find? vm = none) :
    p.finishMigration vm = (false, p) := by
  unfold finishMigration
  rw [h]

/-- The move that ends a migration, before the source is looked at again. -/
def arrive (p : Pool α) (vm : Nat) (v : Vm α) (source target : Nat) : Pool α :=
  ({ p with
    migrations := p.migrations.erase vm
    vms := p.vms.insert vm ({ v with migration := .settled }.moveTo (some target) p.time)
    }.modifyHost source (·.remove vm)).modifyHost target (·.receive vm)

/-- The source has removed the machine, and the target has received it. -/
theorem getElem?_arrive {vm source target : Nat} {v : Vm α} (hne : source ≠ target) (i : Nat) :
    (p.arrive vm v source target).hosts[i]?
      = if i = target then p.hosts[i]?.map (·.receive vm)
        else if i = source then p.hosts[i]?.map (·.remove vm) else p.hosts[i]? := by
  have hhosts : (p.arrive vm v source target).hosts
      = ((p.modifyHost source (·.remove vm)).modifyHost target (·.receive vm)).hosts := rfl
  rw [hhosts, getElem?_modifyHost, getElem?_modifyHost]
  by_cases hi : i = target
  · simp [hi, Ne.symm hne]
  · simp [hi]

theorem finishMigration_of_some {vm source target : Nat} {v : Vm α}
    (ht : p.migrations.find? vm = some target) (hv : p.vms.find? vm = some v)
    (hs : v.host = some source) :
    p.finishMigration vm = (true, (p.arrive vm v source target).switchOffIfPending source) := by
  simp only [finishMigration, ht, hv, hs, arrive]

/-! ## Plans -/

/-- The first move is tried, and then the others. -/
theorem startAll_cons {m : Nat × Nat} {moves : List (Nat × Nat)} {count : Nat} {kept : IdSet}
    (hq : startAll (m :: moves) p = .ok (count, kept, q)) :
    ∃ b p₁ count' kept', p.startMigration m.1 m.2 = .ok (b, p₁)
      ∧ startAll moves p₁ = .ok (count', kept', q) := by
  obtain ⟨⟨b, p₁⟩, hstart, hq⟩ := bind_eq_ok.mp hq
  obtain ⟨⟨count', kept', p₂⟩, hrest, hq⟩ := bind_eq_ok.mp hq
  refine ⟨b, p₁, count', kept', hstart, ?_⟩
  dsimp only at hq
  split at hq <;> cases hq <;> exact hrest

/-- What is kept when one move is tried is kept when all are. -/
theorem startAll_induction {motive : Pool α → Prop} {moves : List (Nat × Nat)} {count : Nat}
    {kept : IdSet} (hq : startAll moves p = .ok (count, kept, q))
    (hstep : ∀ {p q : Pool α} {b : Bool} {vm target : Nat},
      p.startMigration vm target = .ok (b, q) → motive p → motive q) (hp : motive p) :
    motive q := by
  induction moves generalizing p count kept with
  | nil =>
    cases hq
    exact hp
  | cons m moves ih =>
    obtain ⟨b, p₁, count', kept', hstart, hrest⟩ := startAll_cons hq
    exact ih hrest (hstep hstart hp)

omit [Scalar α] in
/-- What is kept when one host is marked is kept when all are. -/
theorem markAllOff_induction {motive : Pool α → Prop} {kept : IdSet} {hosts : List Nat}
    (hq : markAllOff kept hosts p = .ok q)
    (hstep : ∀ {p : Pool α} {i : Nat} {h : Host α}, p.hosts[i]? = some h → motive p →
      motive ({ p with pendingOff := p.pendingOff.add i }.switchOffIfPending i)) (hp : motive p) :
    motive q := by
  induction hosts generalizing p with
  | nil =>
    cases hq
    exact hp
  | cons i hosts ih =>
    unfold markAllOff at hq
    split at hq
    · exact ih hq hp
    · obtain ⟨h, hh, hq⟩ := bind_eq_ok.mp hq
      exact ih hq (hstep (elementAt_eq_ok.mp hh) hp)

theorem execute_outcome {plan : MigrationPlan} {count : Nat}
    (hq : p.execute plan = .ok (count, q)) :
    ∃ kept r, startAll plan.moves p = .ok (count, kept, r)
      ∧ markAllOff kept plan.switchOff.keys r = .ok q := by
  obtain ⟨⟨count', kept, r⟩, hstart, hq⟩ := bind_eq_ok.mp hq
  obtain ⟨q', hmark, hq⟩ := bind_eq_ok.mp hq
  cases hq
  exact ⟨kept, r, hstart, hmark⟩

/-! ## Processing -/

/-- What is kept when one request is brought up to date on one host is kept when all are on all. -/
theorem refreshAll_induction {motive : Pool α → Prop} (vms : List (Vm α))
    (hstep : ∀ {p : Pool α} (v : Vm α) (host : Nat), motive p →
      motive (p.modifyHost host (·.update v (v.request p.time)))) (hp : motive p) :
    motive (p.refreshAll vms) := by
  refine List.foldlRecOn vms refresh hp fun q hq v _ => ?_
  -- each machine is refreshed on the hosts it runs on, one after the other
  exact List.foldlRecOn (q.hostsOf v) _ hq fun _ hr host _ => hstep v host hr

/-! ## Scaling -/

omit [Scalar α] in
/-- A quantity grows by no more than is available, or it shrinks to one unit at least. -/
theorem scaledQuantity?_outcome {available : Except Fault Nat} {quantity n : Nat} {delta : Int}
    (hn : scaledQuantity? available quantity delta = .ok (some n)) :
    (∃ m, available = .ok m ∧ delta.natAbs ≤ m ∧ n = quantity + delta.natAbs)
      ∨ n = max (quantity - delta.natAbs) 1 := by
  unfold scaledQuantity? at hn
  split at hn
  · obtain ⟨m, hm, hn⟩ := bind_eq_ok.mp hn
    split at hn
    · cases hn
    · rename_i henough
      cases hn
      exact .inl ⟨m, hm, Nat.not_lt.mp henough, rfl⟩
  · cases hn
    exact .inr rfl

/-- Cores are changed by a request that the processor admits or refuses; memory and bandwidth are
changed on both sides at once. -/
theorem scale_outcome {vm : Nat} {resource : Resource} {delta : Int}
    (hq : p.scale vm resource delta = .ok (b, q)) :
    q = p
      ∨ ∃ v host h, p.vms.find? vm = some v ∧ v.host = some host ∧ v.migration = .settled
        ∧ p.hosts[host]? = some h
        ∧ ((∃ count h', b = true ∧ h.admit? { v with vcpus := count }
                (Vm.request { v with vcpus := count } p.time) = some h'
              ∧ q = { p with
                hosts := p.hosts.set host h'
                vms := p.vms.insert v.id { v with vcpus := count } })
          ∨ b = false ∧ q = { p with hosts := p.hosts.set host (h.update v (v.request p.time)) }
          ∨ ∃ ram bandwidth, b = true
            ∧ (ram = v.ram ∨ scaledQuantity? h.availableRam v.ram delta = .ok (some ram))
            ∧ (bandwidth = v.bandwidth
              ∨ scaledQuantity? h.availableBandwidth v.bandwidth delta = .ok (some bandwidth))
            ∧ q = p.resize host h { v with ram := ram, bandwidth := bandwidth }) := by
  unfold scale at hq
  split at hq
  case h_2 => exact .inl (of_refusal hq).2
  rename_i v hv
  split at hq
  case h_2 => exact .inl (of_refusal hq).2
  rename_i host hhost
  split at hq
  case isTrue => exact .inl (of_refusal hq).2
  rename_i hfree
  have hfree : v.migration = .settled := by simpa [Vm.isMigrating] using hfree
  split at hq
  case isTrue =>
    cases hq
    exact .inl rfl
  obtain ⟨h, hh, hq⟩ := bind_eq_ok.mp hq
  have hh := elementAt_eq_ok.mp hh
  cases resource with
  | cores =>
    simp only [scaleCores] at hq
    split at hq
    case h_1 => exact .inl (of_refusal hq).2
    rename_i count _
    split at hq
    · rename_i h' hgranted
      cases hq
      exact .inr ⟨v, host, h, hv, hhost, hfree, hh, .inl ⟨count, h', rfl, hgranted, rfl⟩⟩
    · cases hq
      exact .inr ⟨v, host, h, hv, hhost, hfree, hh, .inr (.inl ⟨rfl, rfl⟩)⟩
  | ram =>
    obtain ⟨ram?, hram, hq⟩ := bind_eq_ok.mp hq
    split at hq
    case h_2 => exact .inl (of_refusal hq).2
    rename_i ram
    cases hq
    exact .inr ⟨v, host, h, hv, hhost, hfree, hh,
      .inr (.inr ⟨ram, v.bandwidth, rfl, .inr hram, .inl rfl, rfl⟩)⟩
  | bandwidth =>
    obtain ⟨bandwidth?, hbandwidth, hq⟩ := bind_eq_ok.mp hq
    split at hq
    case h_2 => exact .inl (of_refusal hq).2
    rename_i bandwidth
    cases hq
    exact .inr ⟨v, host, h, hv, hhost, hfree, hh,
      .inr (.inr ⟨v.ram, bandwidth, rfl, .inl rfl, .inr hbandwidth, rfl⟩)⟩

/-- Once it is known where a machine resides and that it is settled, the resource decides. -/
theorem scale_of_settled {vm host : Nat} {v : Vm α} {h : Host α} {delta : Int}
    (hv : p.vms.find? vm = some v) (hhost : v.host = some host) (hsettled : v.migration = .settled)
    (hh : p.hosts[host]? = some h) (hdelta : delta ≠ 0) (resource : Resource) :
    p.scale vm resource delta = match resource with
      | .cores => .ok (p.scaleCores v host h delta)
      | .ram => (scaledQuantity? h.availableRam v.ram delta).map fun
        | some ram => (true, p.resize host h { v with ram := ram })
        | none => (false, p)
      | .bandwidth => (scaledQuantity? h.availableBandwidth v.bandwidth delta).map fun
        | some bandwidth => (true, p.resize host h { v with bandwidth := bandwidth })
        | none => (false, p) := by
  have hget : elementAt p.hosts host = .ok h := elementAt_eq_ok.mpr hh
  have hfree : v.isMigrating = false := by rw [Vm.isMigrating, hsettled, bne_self_eq_false]
  unfold scale
  rw [hv]
  dsimp only
  split
  · rename_i host' hhost'
    obtain rfl := Option.some.inj (hhost.symm.trans hhost')
    rw [hfree, if_neg Bool.false_ne_true, if_neg hdelta, hget]
    cases resource with
    | cores => rfl
    | ram =>
      show (scaledQuantity? h.availableRam v.ram delta >>= _) = _
      cases scaledQuantity? h.availableRam v.ram delta with
      | error fault => rfl
      | ok ram? => cases ram? <;> rfl
    | bandwidth =>
      show (scaledQuantity? h.availableBandwidth v.bandwidth delta >>= _) = _
      cases scaledQuantity? h.availableBandwidth v.bandwidth delta with
      | error fault => rfl
      | ok bandwidth? => cases bandwidth? <;> rfl
  · rename_i hnone
    exact absurd hhost (hnone host)

end Datacenter.Pool
