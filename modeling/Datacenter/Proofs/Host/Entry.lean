import Datacenter.Host
import Datacenter.Proofs.Processor.Resharing

/-!
# The entry of a machine on a host

A host stores what it knows of a machine in six places: two sets of ids, the provisions, the
requests of its processor's ledger, and the ledger's two sets of migration flags. `Host.entry` reads
off all six for one machine.

The entry is the view in which changes of a host are described. `Host.entry_remove` and its
neighbours say what an operation does to the entry of its own machine, and that the entry of every
other machine stays as it is. Apart from these lemmas no proof opens the operations of a host.
-/

namespace Datacenter

variable {α : Type}

/-- All that a host has on file about one machine. -/
@[ext]
structure Entry (α : Type) where
  /-- Whether the machine resides on the host. -/
  resident : Bool
  /-- Whether the machine is on its way to the host. -/
  incoming : Bool
  /-- What is set aside for the machine. -/
  provision : Option Provision
  /-- The request of the machine. -/
  request : Option (Request α)
  /-- Whether the processor counts the machine as arriving. -/
  arriving : Bool
  /-- Whether the processor counts the machine as leaving. -/
  leaving : Bool

namespace Entry

/-- The entry of a machine that has nothing to do with the host. -/
def blank : Entry α where
  resident := false
  incoming := false
  provision := none
  request := none
  arriving := false
  leaving := false

/-- Whether the machine holds something on the host. -/
def isSeated (e : Entry α) : Bool :=
  e.resident || e.incoming

/-- The entry with a request in place of the one on file. -/
def ask (e : Entry α) (request : Request α) : Entry α :=
  { e with request := some request }

/-- The entry of a machine that has become resident. -/
def create (e : Entry α) (provision : Provision) (request : Request α) : Entry α :=
  { e with resident := true, provision := some provision, request := some request }

/-- The entry of a machine that is on its way to the host. -/
def expect (e : Entry α) (provision : Provision) (request : Request α) : Entry α :=
  { e with
    incoming := true
    provision := some provision
    request := some request
    arriving := true }

/-- The entry of a machine that the processor counts as arriving. -/
def flag (e : Entry α) : Entry α :=
  { e with arriving := true }

/-- The entry of a machine that the processor has struck from its ledger. -/
def dismiss (e : Entry α) : Entry α :=
  { e with request := none, arriving := false, leaving := false }

/-- The entry of a machine on its way out. -/
def depart (e : Entry α) : Entry α :=
  { e with leaving := true }

/-- The entry of a machine whose way to the host is over. -/
def receive (e : Entry α) : Entry α :=
  { e with
    resident := true
    incoming := false
    request := e.request.map fun r => { r with inMigration := false }
    arriving := false }

/-- The entry with what is set aside brought up to date, if anything is. -/
def reprovision (e : Entry α) (provision : Provision) : Entry α :=
  { e with provision := e.provision.map fun _ => provision }

end Entry

/-- The request with which a machine is registered. -/
def Request.of (vm : Vm α) (requested : List α) : Request α :=
  { share := requested, inMigration := vm.isMigrating }

namespace Host

/-- The entry of the machine with id `k`. -/
def entry (h : Host α) (k : Nat) : Entry α where
  resident := h.residents.contains k
  incoming := h.incoming.contains k
  provision := h.provisions.find? k
  request := h.processor.ledger.requests.find? k
  arriving := h.processor.ledger.arriving.contains k
  leaving := h.processor.ledger.leaving.contains k

theorem isEmpty_iff {h : Host α} : h.isEmpty = true ↔ ∀ k, (h.entry k).isSeated = false := by
  simp only [isEmpty, Bool.and_eq_true, IdMap.isEmpty_iff, Entry.isSeated, entry,
    Bool.or_eq_false_iff, forall_and]

/-- The entries of a host depend on its ledger and on its own three records only. -/
theorem entry_congr {h h' : Host α} (hl : h'.processor.ledger = h.processor.ledger)
    (hp : h'.provisions = h.provisions) (hr : h'.residents = h.residents)
    (hi : h'.incoming = h.incoming) (k : Nat) : h'.entry k = h.entry k := by
  rw [entry, entry, hl, hp, hr, hi]

variable [Scalar α]

theorem entry_markLeaving (h : Host α) (id k : Nat) :
    (h.markLeaving id).entry k = if k = id then (h.entry k).depart else h.entry k := by
  have hl := h.processor.markLeaving_ledger id
  by_cases hk : k = id
  · subst hk
    cases hc : h.processor.ledger.leaving.contains k <;>
      simp [markLeaving, entry, Entry.depart, hl, hc, Ledger.markLeaving]
  · cases hc : h.processor.ledger.leaving.contains id <;>
      simp [markLeaving, entry, hl, hc, hk, Ledger.markLeaving]

/-- Only a machine that is on its way can be received. -/
theorem entry_receive (h : Host α) (id k : Nat) :
    (h.receive id).entry k
      = if k = id ∧ (h.entry id).incoming = true then (h.entry k).receive else h.entry k := by
  unfold receive
  cases hc : h.incoming.contains id with
  | false => simp [entry, hc]
  | true =>
    by_cases hk : k = id
    · subst hk
      simp [entry, Entry.receive, hc, Ledger.unmarkArriving, Ledger.settleRequest,
        IdMap.find?_modify]
    · simp [entry, hk, Ledger.unmarkArriving, Ledger.settleRequest, IdMap.find?_modify]

theorem entry_remove (h : Host α) (id k : Nat) :
    (h.remove id).entry k = if k = id then .blank else h.entry k := by
  by_cases hk : k = id
  · subst hk
    simp [remove, entry, Entry.blank, Ledger.remove, IdMap.find?_erase]
  · simp [remove, entry, hk, Ledger.remove, IdMap.find?_erase]

/-- An admitted request takes the place of the one on file. -/
theorem entry_admit? {h h' : Host α} {vm : Vm α} {requested : List α}
    (hgranted : h.admit? vm requested = some h') (k : Nat) :
    h'.entry k
      = if k = vm.id then (h.entry k).ask (.of vm requested) else h.entry k := by
  obtain ⟨p, hp, rfl⟩ := Option.map_eq_some_iff.mp hgranted
  have hl := Processor.admit?_ledger hp
  by_cases hk : k = vm.id <;> simp [entry, Entry.ask, Request.of, hl, Ledger.register, hk]

theorem entry_create? {h h' : Host α} {vm : Vm α} {requested : List α}
    (hcreate : h.create? vm requested = some h') (k : Nat) :
    h'.entry k
      = if k = vm.id then (h.entry k).create (.of vm) (.of vm requested) else h.entry k := by
  obtain ⟨h₁, hgranted, rfl⟩ := Option.map_eq_some_iff.mp hcreate
  have hentry := entry_admit? hgranted k
  by_cases hk : k = vm.id
  · rw [if_pos hk] at hentry ⊢
    rw [Entry.ext_iff] at hentry ⊢
    simp [entry, Entry.ask, Entry.create, hk] at hentry ⊢
    exact ⟨hentry.2.1, hentry.2.2.2⟩
  · rw [if_neg hk] at hentry ⊢
    rw [← hentry]
    simp [entry, hk]

/-- A host with a machine flagged as arriving. -/
def flag (h : Host α) (id : Nat) : Host α :=
  { h with processor := h.processor.markArriving id }

theorem entry_flag (h : Host α) (id k : Nat) :
    (h.flag id).entry k = if k = id then (h.entry k).flag else h.entry k := by
  have hl := h.processor.markArriving_ledger id
  by_cases hk : k = id
  · subst hk
    cases hc : h.processor.ledger.arriving.contains k <;>
      simp [flag, entry, Entry.flag, hl, hc, Ledger.markArriving]
  · cases hc : h.processor.ledger.arriving.contains id <;>
      simp [flag, entry, hl, hc, hk, Ledger.markArriving]

/-- A machine is expected exactly if the processor admits it once it is flagged as arriving. -/
theorem expect_eq (h : Host α) (vm : Vm α) (requested : List α) :
    h.expect vm requested
      = match (h.flag vm.id).admit? vm requested with
        | some h' =>
          (true, { h' with
            provisions := h'.provisions.insert vm.id (.of vm)
            incoming := h'.incoming.add vm.id
            isActive := true })
        | none =>
          (false, { h.flag vm.id with processor := (h.flag vm.id).processor.release vm.id }) :=
  rfl

/-- The entry of a machine that is expected says so; one that is refused is struck from the
ledger. -/
theorem entry_expect (h : Host α) (vm : Vm α) (requested : List α) (k : Nat) :
    (h.expect vm requested).2.entry k
      = if k = vm.id then
          if (h.expect vm requested).1 = true then
            (h.entry k).expect (.of vm) (.of vm requested)
          else (h.entry k).dismiss
        else h.entry k := by
  -- the machine is flagged first, and a refusal strikes the flag together with the request
  have hflag := entry_flag h vm.id k
  rw [expect_eq]
  cases hgranted : (h.flag vm.id).admit? vm requested with
  | some h' =>
    have hentry := entry_admit? hgranted k
    rw [hflag] at hentry
    by_cases hk : k = vm.id
    · simp only [hk, if_true, Entry.ext_iff] at hentry ⊢
      simp [entry, Entry.ask, Entry.flag, Entry.expect] at hentry ⊢
      exact ⟨hentry.1, hentry.2.2.2⟩
    · simp only [if_neg hk] at hentry ⊢
      rw [← hentry]
      simp [entry, hk]
  | none =>
    by_cases hk : k = vm.id
    · simp only [hk, if_true, Entry.ext_iff] at hflag ⊢
      simp [entry, Entry.flag, Entry.dismiss, Ledger.remove, IdMap.find?_erase] at hflag ⊢
      exact ⟨hflag.1, hflag.2.1, hflag.2.2.1⟩
    · simp only [if_neg hk] at hflag ⊢
      rw [← hflag]
      simp [entry, hk, Ledger.remove, IdMap.find?_erase]

theorem entry_update (h : Host α) (vm : Vm α) (requested : List α) (k : Nat) :
    (h.update vm requested).entry k = h.entry k
      ∨ k = vm.id ∧ (h.update vm requested).entry k = (h.entry k).ask (.of vm requested) := by
  unfold update
  cases hgranted : h.admit? vm requested with
  | none => exact .inl rfl
  | some h' =>
    rw [Option.getD_some, entry_admit? hgranted]
    by_cases hk : k = vm.id
    · rw [if_pos hk]
      exact .inr ⟨hk, rfl⟩
    · rw [if_neg hk]
      exact .inl rfl

omit [Scalar α] in
theorem entry_reprovision (h : Host α) (vm : Vm α) (k : Nat) :
    (h.reprovision vm).entry k
      = if k = vm.id then (h.entry k).reprovision (.of vm) else h.entry k := by
  unfold reprovision
  by_cases hk : k = vm.id
  · subst hk
    rw [if_pos rfl]
    cases hp : h.provisions.find? vm.id <;>
      simp [entry, Entry.reprovision, IdMap.contains_eq_isSome, hp]
  · rw [if_neg hk]
    split
    · simp [entry, hk]
    · rfl

theorem entry_failCore {h h' : Host α} {i : Nat} (hfail : h.failCore i = .ok h') (k : Nat) :
    h'.entry k = h.entry k := by
  unfold failCore at hfail
  cases hp : h.processor.failCore i with
  | error fault => rw [hp] at hfail; cases hfail
  | ok p =>
    rw [hp] at hfail
    cases hfail
    have hl : p.ledger = h.processor.ledger := Processor.failCore_ledger hp
    simp [entry, hl]

end Host

end Datacenter
