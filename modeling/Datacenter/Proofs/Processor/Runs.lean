import Datacenter.Proofs.Fault
import Datacenter.Proofs.Processor.Reachable

/-!
# Runs of processors

`Processor.Operation` lists what can be done to a processor, and `Processor.perform` does it. A
request that is refused leaves the processor as it is. `perform_outcome` says once what an operation
can do; the facts about runs are read off it.

* A run from a fresh processor leads to a reachable one (`Reachable.performAll`).
* No operation changes the capacities of the cores, the overhead of a migration or the discipline
  that is kept (`SameBuild`).
* An operation about one machine leaves the books about all others alone (`Ledger.SameFor`).
-/

namespace Datacenter

variable {α : Type} [Scalar α]

omit [Scalar α] in
/-- Two ledgers have the same books about machine `k`. -/
structure Ledger.SameFor (l l' : Ledger α) (k : Nat) : Prop where
  request : l'.requests.find? k = l.requests.find? k
  arriving : l'.arriving.contains k = l.arriving.contains k
  leaving : l'.leaving.contains k = l.leaving.contains k

theorem Ledger.SameFor.factor_eq {l l' : Ledger α} {k : Nat} (h : l.SameFor l' k)
    (hoverhead : l'.overhead = l.overhead) : l'.factor k = l.factor k := by
  rw [factor, factor, isMigrating, isMigrating, h.request, h.arriving, h.leaving, hoverhead]

namespace Processor

/-- What can be done to a processor. -/
inductive Operation (α : Type) where
  /-- Registers a request of a machine or replaces it. -/
  | request (vm : Vm α) (requested : List α)
  /-- Releases what a machine holds. -/
  | release (id : Nat)
  /-- Releases what all machines hold. -/
  | releaseAll
  /-- Flags a machine as arriving. -/
  | markArriving (id : Nat)
  /-- Flags a machine as leaving. -/
  | markLeaving (id : Nat)
  /-- Takes the arriving flag of a machine back. -/
  | unmarkArriving (id : Nat)
  /-- Takes the leaving flag of a machine back. -/
  | unmarkLeaving (id : Nat)
  /-- Puts a core out of order. -/
  | failCore (i : Nat)

/-- The machine that an operation is about, if it is about a single one. -/
def Operation.subject? : Operation α → Option Nat
  | request vm _ => some vm.id
  | release id => some id
  | releaseAll => none
  | markArriving id => some id
  | markLeaving id => some id
  | unmarkArriving id => some id
  | unmarkLeaving id => some id
  | failCore _ => none

/-- The processor after an operation, granted or refused. -/
def perform (p : Processor α) : Operation α → Except Fault (Processor α)
  | .request vm requested => .ok ((p.admit? vm requested).getD p)
  | .release id => .ok (p.release id)
  | .releaseAll => .ok p.releaseAll
  | .markArriving id => .ok (p.markArriving id)
  | .markLeaving id => .ok (p.markLeaving id)
  | .unmarkArriving id => .ok (p.unmarkArriving id)
  | .unmarkLeaving id => .ok (p.unmarkLeaving id)
  | .failCore i => p.failCore i

/-- The processor after operations, one after the other. -/
def performAll : List (Operation α) → Processor α → Except Fault (Processor α)
  | [], p => .ok p
  | op :: ops, p => do
    let p ← p.perform op
    performAll ops p

variable {p q : Processor α} {op : Operation α} {ops : List (Operation α)}

/-! ## One operation -/

/-- An operation changes nothing, or it changes the ledger, and by an admission the discipline, or
it puts a core out of order. After a change the shares are computed anew. -/
theorem perform_outcome (hq : p.perform op = .ok q) :
    q = p
      ∨ (∃ discipline ledger, q = { p with discipline := discipline }.withLedger ledger
        ∧ ledger.overhead = p.ledger.overhead
        ∧ (∀ id, op.subject? = some id → ∀ k, k ≠ id → p.ledger.SameFor ledger k)
        ∧ (discipline = p.discipline ∨ ∃ vm requested, op = .request vm requested
          ∧ p.admission? vm requested = some discipline))
      ∨ ∃ i, op = .failCore i ∧ q = { p with cores := p.cores.modify i (·.fail) }.reshare := by
  cases op with
  | request vm requested =>
    obtain rfl := Except.ok.inj hq
    rw [admit?]
    cases hadmission : p.admission? vm requested with
    | none => exact .inl rfl
    | some discipline =>
      refine .inr (.inl ⟨discipline, _, rfl, rfl, ?_, .inr ⟨vm, requested, rfl, hadmission⟩⟩)
      rintro _ ⟨⟩ k hk
      exact ⟨by rw [Ledger.register, IdMap.find?_insert, if_neg hk], rfl, rfl⟩
  | release id =>
    obtain rfl := Except.ok.inj hq
    refine .inr (.inl ⟨p.discipline, _, rfl, rfl, ?_, .inl rfl⟩)
    rintro _ ⟨⟩ k hk
    exact ⟨by rw [Ledger.remove, IdMap.find?_erase, if_neg hk], by simp [Ledger.remove, hk],
      by simp [Ledger.remove, hk]⟩
  | releaseAll =>
    obtain rfl := Except.ok.inj hq
    refine .inr (.inl ⟨p.discipline, _, rfl, rfl, ?_, .inl rfl⟩)
    rintro _ ⟨⟩
  | markArriving id =>
    obtain rfl := Except.ok.inj hq
    unfold markArriving
    split
    · exact .inl rfl
    · refine .inr (.inl ⟨p.discipline, _, rfl, rfl, ?_, .inl rfl⟩)
      rintro _ ⟨⟩ k hk
      exact ⟨rfl, by simp [Ledger.markArriving, hk], rfl⟩
  | markLeaving id =>
    obtain rfl := Except.ok.inj hq
    unfold markLeaving
    split
    · exact .inl rfl
    · refine .inr (.inl ⟨p.discipline, _, rfl, rfl, ?_, .inl rfl⟩)
      rintro _ ⟨⟩ k hk
      exact ⟨rfl, rfl, by simp [Ledger.markLeaving, hk]⟩
  | unmarkArriving id =>
    obtain rfl := Except.ok.inj hq
    refine .inr (.inl ⟨p.discipline, _, rfl, rfl, ?_, .inl rfl⟩)
    rintro _ ⟨⟩ k hk
    exact ⟨by rw [Ledger.unmarkArriving, Ledger.settleRequest, IdMap.find?_modify, if_neg hk],
      by simp [Ledger.unmarkArriving, hk], rfl⟩
  | unmarkLeaving id =>
    obtain rfl := Except.ok.inj hq
    refine .inr (.inl ⟨p.discipline, _, rfl, rfl, ?_, .inl rfl⟩)
    rintro _ ⟨⟩ k hk
    exact ⟨by rw [Ledger.unmarkLeaving, Ledger.settleRequest, IdMap.find?_modify, if_neg hk], rfl,
      by simp [Ledger.unmarkLeaving, hk]⟩
  | failCore i =>
    have hfail : p.failCore i = .ok q := hq
    unfold failCore at hfail
    split at hfail
    · exact .inr (.inr ⟨i, rfl, (Except.ok.inj hfail).symm⟩)
    · contradiction

theorem Reachable.perform (hp : p.Reachable) (hq : p.perform op = .ok q) : q.Reachable := by
  cases op with
  | request vm requested =>
    obtain rfl := Except.ok.inj hq
    cases hgranted : p.admit? vm requested with
    | none => exact hp
    | some q => exact hp.grant hgranted
  | release id => exact Except.ok.inj hq ▸ hp.release id
  | releaseAll => exact Except.ok.inj hq ▸ hp.releaseAll
  | markArriving id => exact Except.ok.inj hq ▸ hp.markArriving id
  | markLeaving id => exact Except.ok.inj hq ▸ hp.markLeaving id
  | unmarkArriving id => exact Except.ok.inj hq ▸ hp.unmarkArriving id
  | unmarkLeaving id => exact Except.ok.inj hq ▸ hp.unmarkLeaving id
  | failCore i => exact hp.failCore hq

/-! ## Runs -/

/-- What every operation keeps is kept by a run. -/
theorem performAll_induction {motive : Processor α → Prop} (hq : p.performAll ops = .ok q)
    (hstep : ∀ {p q : Processor α} {op : Operation α}, p.perform op = .ok q → motive p → motive q)
    (hp : motive p) : motive q := by
  induction ops generalizing p with
  | nil =>
    cases hq
    exact hp
  | cons op ops ih =>
    obtain ⟨p₁, hop, hrest⟩ := Fault.bind_eq_ok.mp hq
    exact ih hrest (hstep hop hp)

theorem Reachable.performAll (hp : p.Reachable) (hq : p.performAll ops = .ok q) : q.Reachable :=
  performAll_induction hq (fun hop hp => hp.perform hop) hp

/-- Two processors have cores of the same capacities, the same overhead and the same way of sharing.
-/
structure SameBuild (p q : Processor α) : Prop where
  capacities : q.cores.map (·.capacity) = p.cores.map (·.capacity)
  overhead : q.ledger.overhead = p.ledger.overhead
  isDedicated : q.isDedicated = p.isDedicated

namespace SameBuild

omit [Scalar α] in
theorem refl (p : Processor α) : p.SameBuild p :=
  ⟨rfl, rfl, rfl⟩

omit [Scalar α] in
theorem trans {r : Processor α} (hpq : p.SameBuild q) (hqr : q.SameBuild r) : p.SameBuild r :=
  ⟨hqr.capacities.trans hpq.capacities, hqr.overhead.trans hpq.overhead,
    hqr.isDedicated.trans hpq.isDedicated⟩

variable [Std.Irrefl (α := α) (· < ·)]

theorem perform (hq : p.perform op = .ok q) : p.SameBuild q := by
  rcases perform_outcome hq with rfl | ⟨discipline, ledger, rfl, hoverhead, -, hd⟩ | ⟨i, -, rfl⟩
  · exact .refl q
  · refine ⟨?_, by rw [withLedger_ledger, hoverhead], ?_⟩
    · exact capacities_reshare _
    · rw [withLedger, isDedicated_reshare]
      rcases hd with rfl | ⟨vm, requested, -, hadmission⟩
      · rfl
      · exact isDedicated_admission? hadmission
  · refine ⟨?_, by rw [reshare_ledger], by rw [isDedicated_reshare]; rfl⟩
    exact (capacities_reshare _).trans (capacities_modify_fail ..)

theorem performAll (hq : p.performAll ops = .ok q) : p.SameBuild q :=
  performAll_induction hq (motive := p.SameBuild) (fun hop hp => hp.trans (perform hop)) (.refl p)

end SameBuild

/-- An operation about one machine changes neither the make-up of the cores nor the books about any
other machine. -/
theorem perform_others [Std.Irrefl (α := α) (· < ·)] {id : Nat} (hid : op.subject? = some id)
    (hq : p.perform op = .ok q) :
    makeup q.cores = makeup p.cores ∧ ∀ k, k ≠ id → p.ledger.SameFor q.ledger k := by
  rcases perform_outcome hq with rfl | ⟨discipline, ledger, rfl, -, hsame, -⟩ | ⟨i, rfl, -⟩
  · exact ⟨rfl, fun _ _ => ⟨rfl, rfl, rfl⟩⟩
  · rw [withLedger_ledger]
    exact ⟨makeup_withLedger _ _, hsame id hid⟩
  · contradiction

/-! ## Runs from fresh processors -/

variable {capacities : List α} {discipline : Discipline} {overhead : α}

/-- What is known of a processor after a run from a fresh one. -/
theorem outcome_of_run [Std.Irrefl (α := α) (· < ·)]
    (unassigned : discipline = .timeShared ∨ discipline = .spaceShared ∅)
    (fraction : checkFraction .migrationOverhead overhead = .ok overhead)
    (hp : (new (capacities.map .new) discipline overhead).performAll ops = .ok p) :
    p.Reachable ∧ p.cores.map (·.capacity) = capacities ∧ p.ledger.overhead = overhead
      ∧ p.isDedicated = (new (capacities.map .new) discipline overhead).isDedicated := by
  have hbuild := SameBuild.performAll hp
  refine ⟨(Reachable.new capacities discipline overhead unassigned fraction).performAll hp, ?_,
    hbuild.overhead, hbuild.isDedicated⟩
  rw [hbuild.capacities, new, List.map_map]
  exact List.map_id capacities

end Processor

end Datacenter
