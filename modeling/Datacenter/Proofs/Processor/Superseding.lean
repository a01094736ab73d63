import Datacenter.Proofs.Processor.Dedicated

/-!
# Ledgers that supersede one another

A new sharing looks at the ledger, the make-up of the cores and the assignments of the machines in
the ledger, and at nothing else (`Processor.withLedger_congr`). So nothing is left of a sharing once
another ledger has taken the place of the one it was computed from, unless the later ledger
registers a machine that the earlier one did not (`Processor.withLedger_withLedger`).

Two consequences are drawn. Machines may be struck from the ledger and have their flags taken back
in any order, since the ledger comes out the same (`Processor.release_comm` and its neighbours). And
a machine that is admitted while it is flagged as arriving, and has its flag taken back later, might
as well have been admitted without one (`Processor.admit?_eq_of_flagged`).
-/

namespace Datacenter

variable {α : Type}

namespace Ledger

variable {a b : Nat}

/-- Forgetting that a machine was migrating when it asked concerns its own request only. -/
theorem changesAt_settle (a : Nat) : IdMap.ChangesAt (β := Request α)
    (·.modify a fun r => { r with inMigration := false }) a :=
  IdMap.changesAt_modify a _

theorem remove_comm (hab : a ≠ b) (l : Ledger α) :
    (l.remove a).remove b = (l.remove b).remove a := by
  have hrequests := (IdMap.changesAt_erase a).comm (IdMap.changesAt_erase b) hab l.requests
  have harriving := (IdMap.changesAt_erase a).comm (IdMap.changesAt_erase b) hab l.arriving
  have hleaving := (IdMap.changesAt_erase a).comm (IdMap.changesAt_erase b) hab l.leaving
  simp only [remove, hrequests, harriving, hleaving]

theorem unmarkArriving_comm (hab : a ≠ b) (l : Ledger α) :
    (l.unmarkArriving a).unmarkArriving b = (l.unmarkArriving b).unmarkArriving a := by
  have hrequests := (changesAt_settle a).comm (changesAt_settle b) hab l.requests
  have harriving := (IdMap.changesAt_erase a).comm (IdMap.changesAt_erase b) hab l.arriving
  simp only [unmarkArriving, settleRequest, hrequests, harriving]

theorem remove_unmarkArriving (hab : a ≠ b) (l : Ledger α) :
    (l.unmarkArriving a).remove b = (l.remove b).unmarkArriving a := by
  have hrequests := (changesAt_settle a).comm (IdMap.changesAt_erase b) hab l.requests
  have harriving := (IdMap.changesAt_erase a).comm (IdMap.changesAt_erase b) hab l.arriving
  simp only [remove, unmarkArriving, settleRequest, hrequests, harriving]

/-- Whoever is in the ledger once a machine has been struck was in it before. -/
theorem contains_of_remove {l : Ledger α} (k : Nat) (h : (l.remove a).contains k = true) :
    l.contains k = true := by
  simp only [contains, remove, IdMap.contains_erase, Bool.and_eq_true] at h
  exact h.2

theorem contains_of_unmarkArriving {l : Ledger α} (k : Nat)
    (h : (l.unmarkArriving a).contains k = true) : l.contains k = true :=
  (IdMap.contains_modify ..).symm.trans h

end Ledger

/-! ## What a sharing looks at -/

/-- A discipline without the assignments of machines that are not in a ledger. -/
def Discipline.restrict (l : Ledger α) : Discipline → Discipline
  | .timeShared => .timeShared
  | .spaceShared a => .spaceShared (a.filter fun id _ => l.contains id)

/-- A discipline that is restricted to more machines first is restricted in the end as if it had not
been. -/
theorem Discipline.restrict_restrict {l l' : Ledger α}
    (h : ∀ id, l'.contains id = true → l.contains id = true) (d : Discipline) :
    (d.restrict l).restrict l' = d.restrict l' := by
  cases d with
  | timeShared => rfl
  | spaceShared a =>
    refine congrArg Discipline.spaceShared (IdMap.ext_find? fun k => ?_)
    simp only [IdMap.find?_filter]
    cases a.find? k with
    | none => rfl
    | some is =>
      cases hk : l'.contains k with
      | true => simp [Option.filter, h k hk]
      | false => cases l.contains k <;> simp [Option.filter]

namespace Processor

variable [Scalar α] {p q : Processor α}

theorem discipline_withLedger (p : Processor α) (l : Ledger α) :
    (p.withLedger l).discipline = p.discipline.restrict l := by
  obtain ⟨cores, ledger, allocations, discipline⟩ := p
  cases discipline <;> rfl

/-- Processors of one make-up with one assignment of the machines in a ledger share by this ledger
in one way. -/
theorem withLedger_congr {l : Ledger α} (hmakeup : makeup p.cores = makeup q.cores)
    (hdiscipline : p.discipline.restrict l = q.discipline.restrict l) :
    p.withLedger l = q.withLedger l := by
  obtain ⟨cores, ledger, allocations, discipline⟩ := p
  obtain ⟨cores', ledger', allocations', discipline'⟩ := q
  cases discipline with
  | timeShared =>
    cases discipline' with
    | timeShared => simp only [withLedger, reshare, TimeShared.share_congr hmakeup]
    | spaceShared a' => cases hdiscipline
  | spaceShared a =>
    cases discipline' with
    | timeShared => cases hdiscipline
    | spaceShared a' =>
      have hassignment := Discipline.spaceShared.inj hdiscipline
      simp only [withLedger, reshare, hassignment, SpaceShared.share_congr hmakeup]

variable [Std.Irrefl (α := α) (· < ·)]

/-- A ledger takes the place of another one without a trace if it registers no more machines. -/
theorem withLedger_withLedger {l l' : Ledger α}
    (h : ∀ id, l'.contains id = true → l.contains id = true) :
    (p.withLedger l).withLedger l' = p.withLedger l' := by
  apply withLedger_congr (makeup_withLedger p l)
  rw [discipline_withLedger, Discipline.restrict_restrict h]

/-! ## Changes about different machines -/

section

variable {a b : Nat}

theorem release_comm (hab : a ≠ b) (p : Processor α) :
    (p.release a).release b = (p.release b).release a := by
  unfold release
  rw [withLedger_ledger, withLedger_ledger, withLedger_withLedger Ledger.contains_of_remove,
    withLedger_withLedger Ledger.contains_of_remove, Ledger.remove_comm hab]

theorem unmarkArriving_comm (hab : a ≠ b) (p : Processor α) :
    (p.unmarkArriving a).unmarkArriving b = (p.unmarkArriving b).unmarkArriving a := by
  unfold unmarkArriving
  rw [withLedger_ledger, withLedger_ledger,
    withLedger_withLedger Ledger.contains_of_unmarkArriving,
    withLedger_withLedger Ledger.contains_of_unmarkArriving,
    Ledger.unmarkArriving_comm hab]

theorem release_unmarkArriving (hab : a ≠ b) (p : Processor α) :
    (p.unmarkArriving a).release b = (p.release b).unmarkArriving a := by
  unfold unmarkArriving release
  rw [withLedger_ledger, withLedger_ledger, withLedger_withLedger Ledger.contains_of_remove,
    withLedger_withLedger Ledger.contains_of_unmarkArriving,
    Ledger.remove_unmarkArriving hab]

/-- A machine that is struck from the ledger might as well not have been flagged. -/
theorem release_markLeaving (p : Processor α) (id : Nat) :
    (p.markLeaving id).release id = p.release id := by
  unfold markLeaving
  split
  · rfl
  have hledger : (p.ledger.markLeaving id).remove id = p.ledger.remove id := by
    have hleaving : (p.ledger.leaving.add id).erase id = p.ledger.leaving.erase id :=
      IdMap.erase_insert ..
    simp only [Ledger.remove, Ledger.markLeaving, hleaving]
  unfold release
  rw [withLedger_ledger, withLedger_withLedger Ledger.contains_of_remove, hledger]

end

/-! ## Flags that are taken back -/

omit [Std.Irrefl (α := α) (· < ·)] in
/-- Which cores are free is read off the make-up. -/
theorem freeCores_congr {cores cores' : List (Core α)} (h : makeup cores' = makeup cores)
    (a : SpaceShared.Assignment) (id : Nat) (x : α) :
    SpaceShared.freeCores cores' a id x = SpaceShared.freeCores cores a id x := by
  have hmakeup : ∀ cs : List (Core α), SpaceShared.freeCores cs a id x
      = ((makeup cs).zipIdx.filter fun c =>
        !(SpaceShared.taken a id).contains c.2 && c.1.2 && x ≤ c.1.1).map Prod.snd := by
    intro cs
    rw [makeup, List.zipIdx_map, List.filter_map, List.map_map]
    rfl
  rw [hmakeup, hmakeup, h]

omit [Std.Irrefl (α := α) (· < ·)] in
/-- Processors of one make-up with one assignment admit the same machines. -/
theorem admission?_congr {vm vm' : Vm α} (hmakeup : makeup q.cores = makeup p.cores)
    (hdiscipline : q.discipline = p.discipline) (hid : vm'.id = vm.id)
    (hvcpus : vm'.vcpus = vm.vcpus) (requested : List α) :
    q.admission? vm' requested = p.admission? vm requested := by
  unfold admission?
  rw [hdiscipline]
  cases p.discipline with
  | timeShared =>
    have hadmits : TimeShared.admits q.cores vm' requested
        = TimeShared.admits p.cores vm requested := by
      simp only [TimeShared.admits, length_working_congr hmakeup, hvcpus]
    simp only [hadmits]
  | spaceShared a => simp only [SpaceShared.admit?, freeCores_congr hmakeup, hid]

/-- Flagging a machine as arriving changes no assignment. -/
theorem discipline_markArriving (hp : p.Reachable) (id : Nat) :
    (p.markArriving id).discipline = p.discipline := by
  unfold markArriving
  split
  · rfl
  have hcurrent : (p.withLedger p.ledger).discipline = p.discipline :=
    congrArg discipline (reshare_of_reachable hp)
  rw [discipline_withLedger] at hcurrent ⊢
  exact hcurrent

/-- A machine that is not flagged yet is answered alike with and without the flag. -/
theorem admission?_markArriving (hp : p.Reachable) {vm vm' : Vm α} (hid : vm'.id = vm.id)
    (hvcpus : vm'.vcpus = vm.vcpus) (requested : List α) :
    (p.markArriving vm.id).admission? vm' requested = p.admission? vm requested :=
  admission?_congr (makeup_markArriving p vm.id) (discipline_markArriving hp vm.id) hid hvcpus
    requested

/-- A settled machine is admitted exactly if it would be while it arrives, and with the same result
as if it had arrived. -/
theorem admit?_eq_of_flagged (hp : p.Reachable) {vm vm' : Vm α}
    (hnew : p.ledger.arriving.contains vm.id = false) (hid : vm'.id = vm.id)
    (hvcpus : vm'.vcpus = vm.vcpus) (hsettled : vm.isMigrating = false) (requested : List α) :
    p.admit? vm requested
      = ((p.markArriving vm.id).admit? vm' requested).map (·.unmarkArriving vm.id) := by
  have hflag : p.markArriving vm.id = p.withLedger (p.ledger.markArriving vm.id) := by
    unfold markArriving
    rw [hnew]
    rfl
  have hrequests : (p.ledger.requests.insert vm.id ⟨requested, vm'.isMigrating⟩).modify vm.id
      (fun r => { r with inMigration := false })
        = p.ledger.requests.insert vm.id ⟨requested, false⟩ :=
    IdMap.modify_insert ..
  have harriving : (p.ledger.arriving.add vm.id).erase vm.id = p.ledger.arriving :=
    IdMap.erase_insert_self (by simpa [IdMap.contains_eq_isSome] using hnew) ()
  -- the flag and the note that the machine migrates are both gone in the end
  have hledger : ((p.markArriving vm.id).ledger.register vm' requested).unmarkArriving vm.id
      = p.ledger.register vm requested := by
    rw [hflag, withLedger_ledger]
    simp only [Ledger.unmarkArriving, Ledger.settleRequest, Ledger.register, Ledger.markArriving,
      hid, hrequests, harriving, hsettled]
  unfold admit?
  rw [admission?_markArriving hp hid hvcpus]
  cases hadmission : p.admission? vm requested with
  | none => rfl
  | some discipline =>
    rw [Option.map_some, Option.map_some, Option.map_some, unmarkArriving, withLedger_ledger,
      hledger, withLedger_withLedger fun k h => ?_]
    · refine congrArg some (withLedger_congr ?_ rfl)
      exact (makeup_markArriving p vm.id).symm
    · rw [← hledger] at h
      exact Ledger.contains_of_unmarkArriving k h

end Processor

end Datacenter
