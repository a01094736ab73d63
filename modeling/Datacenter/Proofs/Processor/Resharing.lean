import Datacenter.Processor.Basic
import Datacenter.Proofs.IdMap

/-!
# What a new sharing leaves alone

Computing the shares anew changes what the cores carry and what the machines receive, but neither
the ledger it is computed from (`Processor.reshare_ledger`) nor the make-up of the processor: the
capacity of every core and whether it works (`Processor.makeup_reshare`). The total capacity is read
off the make-up alone (`Processor.capacity_congr`).

Every operation on a processor is a change of the ledger followed by a new sharing, so the lemmas
about the ledger after an operation are equations, and only `Processor.failCore` changes the
make-up. That a core out of order stays so rests on a single law of numbers: zero is not below
itself.
-/

namespace Datacenter

variable {α : Type} [Scalar α]

namespace Core

/-- What no sharing changes of a core: its capacity and whether it works. -/
def profile (c : Core α) : α × Bool :=
  (c.capacity, c.isWorking)

@[simp] theorem profile_reset (c : Core α) : c.reset.profile = c.profile := by
  unfold profile reset isWorking
  cases c.status <;> rfl

omit [Scalar α] in
@[simp] theorem profile_reserve (c : Core α) : c.reserve.profile = c.profile := by
  unfold reserve
  split
  · rename_i hworking
    rw [profile, profile, hworking]
    rfl
  · rfl

/-- Nothing can be taken where nothing is left. -/
theorem not_lt_taken [Std.Irrefl (α := α) (· < ·)] (amount : α) :
    ¬ (0 : α) < Scalar.larger (Scalar.smaller amount 0) 0 := by
  have hzero : ¬ (0 : α) < 0 := Std.Irrefl.irrefl (r := (· < ·)) 0
  have hsmaller : ¬ (0 : α) < Scalar.smaller amount 0 := by
    unfold Scalar.smaller
    split
    · exact hzero
    · rename_i h
      simp only [Bool.or_eq_true, decide_eq_true_eq, not_or] at h
      exact h.1
  unfold Scalar.larger
  split
  · exact hzero
  · exact hsmaller

@[simp] theorem profile_allocate [Std.Irrefl (α := α) (· < ·)] (c : Core α) (amount : α) :
    (c.allocate amount).2.profile = c.profile := by
  unfold allocate
  dsimp only
  split
  · rename_i htaken
    cases hworking : c.isWorking with
    | true =>
      rw [profile, profile, hworking]
      rfl
    -- a core that does not work has nothing to give, so it is not marked as busy
    | false =>
      rw [available, hworking] at htaken
      exact absurd htaken (not_lt_taken amount)
  · rfl

end Core

/-- The make-up of some cores: their capacities, and which of them work. -/
def makeup (cores : List (Core α)) : List (α × Bool) :=
  cores.map Core.profile

omit [Scalar α] in
/-- The capacities of the working cores are read off the make-up. -/
theorem capacities_working (cores : List (Core α)) :
    (Core.working cores).map (·.capacity)
      = ((makeup cores).filter (·.2)).map Prod.fst := by
  rw [makeup, List.filter_map, List.map_map]
  rfl

omit [Scalar α] in
theorem length_working_congr {cores cores' : List (Core α)} (h : makeup cores = makeup cores') :
    (Core.working cores).length = (Core.working cores').length := by
  have hcount : ∀ cs : List (Core α),
      (Core.working cs).length = ((makeup cs).filter (·.2)).length := by
    intro cs
    rw [← List.length_map (f := Core.capacity), capacities_working, List.length_map]
  rw [hcount, hcount, h]

omit [Scalar α] in
theorem capacities_eq_makeup (cores : List (Core α)) :
    cores.map (·.capacity) = (makeup cores).map Prod.fst := by
  rw [makeup, List.map_map]
  rfl

/-- A core that fails keeps its capacity. -/
theorem capacities_modify_fail (cores : List (Core α)) (i : Nat) :
    (cores.modify i (·.fail)).map (·.capacity) = cores.map (·.capacity) := by
  apply List.ext_getElem?
  intro j
  simp only [List.getElem?_map, List.getElem?_modify, Option.map_eq_map, Option.map_map]
  congr 1
  funext c
  by_cases hij : i = j <;> simp [hij, Core.fail]

/-! ## Time sharing -/

namespace TimeShared

variable [Std.Irrefl (α := α) (· < ·)]

theorem profile_fill (rounds : Nat) (needed : α) (core : Core α) :
    (fill rounds needed core).2.profile = core.profile := by
  induction rounds generalizing needed core with
  | zero => rfl
  | succ rounds ih =>
    unfold fill
    split
    · rw [ih, Core.profile_allocate]
    · rfl

theorem makeup_pour (needed : α) (cores : List (Core α)) :
    makeup (pour needed cores).2 = makeup cores := by
  induction cores generalizing needed with
  | nil => rfl
  | cons core cores ih =>
    show (fill 3 needed core).2.profile :: makeup (pour _ cores).2 = _
    rw [ih, profile_fill]
    rfl

theorem makeup_layOut (amounts : List (Nat × α)) (cores : List (Core α)) :
    makeup (layOut amounts cores).2 = makeup cores := by
  induction amounts generalizing cores with
  | nil => rfl
  | cons amount amounts ih =>
    show makeup (layOut amounts (pour amount.2 cores).2).2 = _
    rw [ih, makeup_pour]

theorem makeup_share (cores : List (Core α)) (ledger : Ledger α) :
    makeup (share cores ledger).2 = makeup cores := by
  show makeup (layOut _ (cores.map Core.reset)).2 = _
  rw [makeup_layOut, makeup, makeup, List.map_map]
  exact List.map_congr_left fun c _ => Core.profile_reset c

end TimeShared

/-! ## Space sharing -/

namespace SpaceShared

variable [Std.Irrefl (α := α) (· < ·)]

theorem makeup_serveCore (factor mips : α) (i : Nat) (cores : List (Core α)) :
    makeup (serveCore factor mips i cores).2 = makeup cores := by
  unfold serveCore
  split
  · rename_i core hcore
    have hprofile : (core.reserve.allocate (Scalar.clamp mips 0 core.capacity * factor)).2.profile
        = core.profile := by
      rw [Core.profile_allocate, Core.profile_reserve]
    show (cores.set i _).map Core.profile = cores.map Core.profile
    rw [List.map_set, hprofile]
    -- writing back the profile that the core had changes nothing
    apply List.ext_getElem?
    intro j
    rw [List.getElem?_set]
    split
    · rename_i hij
      subst hij
      simp only [List.getElem?_map, hcore, Option.map_some, List.length_map]
      rw [if_pos (List.getElem?_eq_some_iff.mp hcore).1]
    · rfl
  · rfl

theorem makeup_serve (factor : α) (demands : List (α × Nat)) (cores : List (Core α)) :
    makeup (serve factor demands cores).2 = makeup cores := by
  induction demands generalizing cores with
  | nil => rfl
  | cons demand demands ih =>
    show makeup (serve factor demands (serveCore factor demand.1 demand.2 cores).2).2 = _
    rw [ih, makeup_serveCore]

theorem makeup_serveAll (ledger : Ledger α) (a : Assignment)
    (requests : List (Nat × Request α)) (allocations : IdMap (List α)) (cores : List (Core α)) :
    makeup (serveAll ledger a requests allocations cores).2 = makeup cores := by
  induction requests generalizing allocations cores with
  | nil => rfl
  | cons request requests ih =>
    unfold serveAll
    rw [ih, makeup_serve]

theorem makeup_share (cores : List (Core α)) (ledger : Ledger α) (a : Assignment) :
    makeup (share cores ledger a).2 = makeup cores := by
  unfold share
  rw [makeup_serveAll, makeup, makeup, List.map_map]
  exact List.map_congr_left fun c _ => Core.profile_reset c

end SpaceShared

/-! ## Processors -/

namespace Processor

@[simp] theorem reshare_ledger (p : Processor α) : p.reshare.ledger = p.ledger := by
  unfold reshare
  split <;> rfl

@[simp] theorem withLedger_ledger (p : Processor α) (l : Ledger α) :
    (p.withLedger l).ledger = l :=
  reshare_ledger _

@[simp] theorem release_ledger (p : Processor α) (id : Nat) :
    (p.release id).ledger = p.ledger.remove id :=
  withLedger_ledger ..

@[simp] theorem unmarkArriving_ledger (p : Processor α) (id : Nat) :
    (p.unmarkArriving id).ledger = p.ledger.unmarkArriving id :=
  withLedger_ledger ..

/-- An admitted request is in the ledger afterwards, and nothing else has changed there. -/
theorem admit?_ledger {p q : Processor α} {vm : Vm α} {requested : List α}
    (h : p.admit? vm requested = some q) : q.ledger = p.ledger.register vm requested := by
  obtain ⟨discipline, -, rfl⟩ := Option.map_eq_some_iff.mp h
  exact withLedger_ledger ..

theorem failCore_ledger {p q : Processor α} {i : Nat} (h : p.failCore i = .ok q) :
    q.ledger = p.ledger := by
  unfold failCore at h
  split at h
  · cases h
    exact reshare_ledger _
  · contradiction

theorem markArriving_ledger (p : Processor α) (id : Nat) :
    (p.markArriving id).ledger
      = if p.ledger.arriving.contains id then p.ledger else p.ledger.markArriving id := by
  unfold markArriving
  split
  · rfl
  · exact withLedger_ledger ..

theorem markLeaving_ledger (p : Processor α) (id : Nat) :
    (p.markLeaving id).ledger
      = if p.ledger.leaving.contains id then p.ledger else p.ledger.markLeaving id := by
  unfold markLeaving
  split
  · rfl
  · exact withLedger_ledger ..

omit [Scalar α] in
theorem discipline_of_shared {p : Processor α} (h : p.isDedicated = false) :
    p.discipline = .timeShared := by
  cases hd : p.discipline with
  | timeShared => rfl
  | spaceShared a => simp [isDedicated, hd] at h

omit [Scalar α] in
theorem discipline_of_dedicated {p : Processor α} (h : p.isDedicated = true) :
    ∃ a, p.discipline = .spaceShared a := by
  cases hd : p.discipline with
  | timeShared => simp [isDedicated, hd] at h
  | spaceShared a => exact ⟨a, rfl⟩

@[simp] theorem isDedicated_reshare (p : Processor α) : p.reshare.isDedicated = p.isDedicated := by
  cases hd : p.discipline <;> simp [reshare, isDedicated, hd]

theorem isDedicated_markArriving (p : Processor α) (id : Nat) :
    (p.markArriving id).isDedicated = p.isDedicated := by
  unfold markArriving
  split
  · rfl
  · exact isDedicated_reshare _

/-- An admission does not change the way of sharing. -/
theorem isDedicated_admission? {p : Processor α} {vm : Vm α} {requested : List α}
    {discipline : Discipline} (h : p.admission? vm requested = some discipline) :
    ({ p with discipline := discipline } : Processor α).isDedicated = p.isDedicated := by
  unfold admission? at h
  split at h
  · rename_i hd
    split at h
    · cases h
      simp [isDedicated, hd]
    · cases h
  · rename_i hd
    obtain ⟨a, -, rfl⟩ := Option.map_eq_some_iff.mp h
    simp [isDedicated, hd]

theorem isDedicated_admit? {p q : Processor α} {vm : Vm α} {requested : List α}
    (h : p.admit? vm requested = some q) : q.isDedicated = p.isDedicated := by
  obtain ⟨discipline, hdiscipline, rfl⟩ := Option.map_eq_some_iff.mp h
  rw [withLedger, isDedicated_reshare]
  exact isDedicated_admission? hdiscipline

section Makeup

variable [Std.Irrefl (α := α) (· < ·)]

@[simp] theorem makeup_reshare (p : Processor α) : makeup p.reshare.cores = makeup p.cores := by
  unfold reshare
  split
  · exact TimeShared.makeup_share ..
  · exact SpaceShared.makeup_share ..

theorem capacities_reshare (p : Processor α) :
    p.reshare.cores.map (·.capacity) = p.cores.map (·.capacity) := by
  rw [capacities_eq_makeup, makeup_reshare, ← capacities_eq_makeup]

@[simp] theorem makeup_withLedger (p : Processor α) (l : Ledger α) :
    makeup (p.withLedger l).cores = makeup p.cores :=
  makeup_reshare _

theorem makeup_admit? {p q : Processor α} {vm : Vm α} {requested : List α}
    (h : p.admit? vm requested = some q) : makeup q.cores = makeup p.cores := by
  obtain ⟨discipline, -, rfl⟩ := Option.map_eq_some_iff.mp h
  exact makeup_withLedger ..

@[simp] theorem makeup_markArriving (p : Processor α) (id : Nat) :
    makeup (p.markArriving id).cores = makeup p.cores := by
  unfold markArriving
  split
  · rfl
  · exact makeup_withLedger ..

@[simp] theorem makeup_markLeaving (p : Processor α) (id : Nat) :
    makeup (p.markLeaving id).cores = makeup p.cores := by
  unfold markLeaving
  split
  · rfl
  · exact makeup_withLedger ..

end Makeup

/-- Processors of one make-up have one capacity. -/
theorem capacity_congr {p q : Processor α} (h : makeup p.cores = makeup q.cores) :
    p.capacity = q.capacity := by
  unfold capacity TimeShared.capacity
  rw [capacities_working, capacities_working, h]

theorem fastest_congr {p q : Processor α} (h : makeup p.cores = makeup q.cores) :
    p.fastest = q.fastest := by
  unfold fastest TimeShared.fastest
  rw [capacities_working, capacities_working, h]

omit [Scalar α] in
theorem workingCount_congr {p q : Processor α} (h : makeup p.cores = makeup q.cores) :
    p.workingCount = q.workingCount :=
  length_working_congr h

end Processor

end Datacenter
