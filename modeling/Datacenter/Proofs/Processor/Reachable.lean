import Datacenter.Proofs.Processor.Resharing
import Datacenter.Settings.Error

/-!
# Reachable processors

A processor is *reachable* if it comes out of a fresh one, on which nothing is registered, by
requests that are admitted, releases, migration flags and failing cores. A refused request has no
processor to go on with.

The shares of a reachable processor are up to date (`reshare_of_reachable`): computing them anew
changes nothing. The reason is that the computation looks at the ledger, the discipline and the
make-up of the cores only, and keeps all three.
-/

namespace Datacenter

variable {α : Type} [Scalar α]

/-! ## What the shares depend on -/

/-- Taking everything back leaves what is read off the make-up. -/
theorem map_reset_congr {cores cores' : List (Core α)} (h : makeup cores = makeup cores') :
    cores.map Core.reset = cores'.map Core.reset := by
  have hreset : ∀ cs : List (Core α), cs.map Core.reset
      = (makeup cs).map fun p => ⟨p.1, 0, if p.2 then .free else .failed⟩ := by
    intro cs
    rw [makeup, List.map_map]
    rfl
  rw [hreset, hreset, h]

theorem TimeShared.share_congr {cores cores' : List (Core α)} (h : makeup cores = makeup cores')
    (ledger : Ledger α) : share cores ledger = share cores' ledger := by
  have hentitled : entitlements cores ledger = entitlements cores' ledger := by
    unfold entitlements demands fastest capacity
    rw [capacities_working, capacities_working, h]
  rw [share, share, hentitled, map_reset_congr h]

theorem SpaceShared.share_congr {cores cores' : List (Core α)} (h : makeup cores = makeup cores')
    (ledger : Ledger α) (a : Assignment) : share cores ledger a = share cores' ledger a := by
  rw [share, share, map_reset_congr h]

namespace Processor

theorem reshare_reshare [Std.Irrefl (α := α) (· < ·)] (p : Processor α) :
    p.reshare.reshare = p.reshare := by
  obtain ⟨cores, ledger, allocations, discipline⟩ := p
  cases discipline with
  | timeShared =>
    simp only [reshare, TimeShared.share_congr (TimeShared.makeup_share cores ledger) ledger]
  | spaceShared a =>
    -- the assignments that are left are all of registered machines
    have hfilter : (a.filter fun id _ => ledger.contains id).filter
        (fun id _ => ledger.contains id) = a.filter fun id _ => ledger.contains id := by
      simp [IdMap.filter]
    simp only [reshare, hfilter, SpaceShared.share_congr (SpaceShared.makeup_share cores ledger _)]

/-! ## Runs -/

/-- The processors that come out of a fresh one. -/
inductive Reachable : Processor α → Prop where
  /-- Free cores of some capacities under one of the two disciplines. -/
  | new (capacities : List α) (discipline : Discipline) (overhead : α)
      (unassigned : discipline = .timeShared ∨ discipline = .spaceShared ∅)
      (fraction : checkFraction .migrationOverhead overhead = .ok overhead) :
      Reachable (.new (capacities.map .new) discipline overhead)
  /-- A request that is admitted. -/
  | grant {p q : Processor α} {vm : Vm α} {requested : List α} :
      Reachable p → p.admit? vm requested = some q → Reachable q
  /-- What a machine holds is released. -/
  | release {p : Processor α} (id : Nat) : Reachable p → Reachable (p.release id)
  /-- What all machines hold is released. -/
  | releaseAll {p : Processor α} : Reachable p → Reachable p.releaseAll
  /-- A machine is flagged as arriving. -/
  | markArriving {p : Processor α} (id : Nat) : Reachable p → Reachable (p.markArriving id)
  /-- A machine is flagged as leaving. -/
  | markLeaving {p : Processor α} (id : Nat) : Reachable p → Reachable (p.markLeaving id)
  /-- The arriving flag of a machine is taken back. -/
  | unmarkArriving {p : Processor α} (id : Nat) : Reachable p → Reachable (p.unmarkArriving id)
  /-- The leaving flag of a machine is taken back. -/
  | unmarkLeaving {p : Processor α} (id : Nat) : Reachable p → Reachable (p.unmarkLeaving id)
  /-- A core fails. -/
  | failCore {p q : Processor α} {i : Nat} :
      Reachable p → p.failCore i = .ok q → Reachable q

namespace Reachable

variable {p q : Processor α}

/-- What holds of fresh processors and is kept by every change of the ledger, of the assignment that
admits a request and of the cores holds of all reachable ones. Changes are followed by a new
computation of the shares, and flags that are set already change nothing. -/
theorem invariant {motive : Processor α → Prop}
    (new : ∀ (capacities : List α) (discipline : Discipline) (overhead : α),
      discipline = .timeShared ∨ discipline = .spaceShared ∅ →
      checkFraction .migrationOverhead overhead = .ok overhead →
      motive (.new (capacities.map .new) discipline overhead))
    (grant : ∀ (p : Processor α) vm requested discipline, motive p →
      p.admission? vm requested = some discipline →
      motive ({ p with discipline := discipline }.withLedger (p.ledger.register vm requested)))
    (withLedger : ∀ (p : Processor α) l, motive p → l.overhead = p.ledger.overhead →
      (∀ id r, l.requests.find? id = some r →
        ∃ r', p.ledger.requests.find? id = some r' ∧ r.share = r'.share) →
      motive (p.withLedger l))
    (failCore : ∀ (p : Processor α) i, motive p →
      motive { p with cores := p.cores.modify i (·.fail) }.reshare)
    (hp : p.Reachable) : motive p := by
  have hsame : ∀ l l' : Ledger α, l'.requests = l.requests → ∀ id r,
      l'.requests.find? id = some r →
        ∃ r', l.requests.find? id = some r' ∧ r.share = r'.share := by
    intro l l' h id r hr
    exact ⟨r, h ▸ hr, rfl⟩
  have hsettle : ∀ (l : Ledger α) (k id : Nat) (r : Request α),
      (l.settleRequest k).requests.find? id = some r →
        ∃ r', l.requests.find? id = some r' ∧ r.share = r'.share := by
    intro l k id r hr
    rw [Ledger.settleRequest, IdMap.find?_modify] at hr
    split at hr
    · obtain ⟨r', hr', rfl⟩ := Option.map_eq_some_iff.mp hr
      exact ⟨r', hr', rfl⟩
    · exact ⟨r, hr, rfl⟩
  induction hp with
  | new capacities discipline overhead unassigned fraction =>
    exact new capacities discipline overhead unassigned fraction
  | grant _ hgranted ih =>
    obtain ⟨discipline, hdiscipline, rfl⟩ := Option.map_eq_some_iff.mp hgranted
    exact grant _ _ _ discipline ih hdiscipline
  | release id _ ih =>
    refine withLedger _ _ ih rfl fun k r hr => ?_
    rw [Ledger.remove, IdMap.find?_erase] at hr
    split at hr
    · contradiction
    · exact ⟨r, hr, rfl⟩
  | releaseAll _ ih => exact withLedger _ _ ih rfl fun _ _ hr => nomatch hr
  | markArriving id _ ih =>
    unfold Processor.markArriving
    split
    · exact ih
    · exact withLedger _ _ ih rfl (hsame _ _ rfl)
  | markLeaving id _ ih =>
    unfold Processor.markLeaving
    split
    · exact ih
    · exact withLedger _ _ ih rfl (hsame _ _ rfl)
  | unmarkArriving id _ ih => exact withLedger _ _ ih rfl (hsettle _ id)
  | unmarkLeaving id _ ih => exact withLedger _ _ ih rfl (hsettle _ id)
  | failCore _ hfail ih =>
    unfold Processor.failCore at hfail
    split at hfail
    · cases hfail
      exact failCore _ _ ih
    · contradiction

/-- The overhead of a migration is a fraction. -/
theorem overhead (hp : p.Reachable) :
    checkFraction .migrationOverhead p.ledger.overhead = .ok p.ledger.overhead := by
  refine hp.invariant (motive := fun p =>
    checkFraction .migrationOverhead p.ledger.overhead = .ok p.ledger.overhead) ?_ ?_ ?_ ?_
  · exact fun _ _ _ _ fraction => fraction
  · intro p vm requested discipline h _
    rw [withLedger_ledger]
    exact h
  · intro p l h hl _
    rw [withLedger_ledger, hl]
    exact h
  · intro p i h
    rw [reshare_ledger]
    exact h

end Reachable

/-- The shares of a reachable processor are up to date. -/
theorem reshare_of_reachable [Std.Irrefl (α := α) (· < ·)] {p : Processor α} (hp : p.Reachable) :
    p.reshare = p := by
  refine hp.invariant (motive := fun p => p.reshare = p) ?_ ?_ ?_ ?_
  · intro capacities discipline overhead unassigned _
    -- the cores are free already, and nothing is registered
    have hfree : (capacities.map Core.new).map Core.reset = capacities.map Core.new := by
      rw [List.map_map]
      rfl
    rcases unassigned with rfl | rfl
    · have hshare : TimeShared.share (capacities.map Core.new) (Ledger.new overhead)
          = (∅, (capacities.map Core.new).map Core.reset) := rfl
      simp only [reshare, Processor.new, hshare, hfree]
    · have hshare : SpaceShared.share (capacities.map Core.new) (Ledger.new overhead) ∅
          = (∅, (capacities.map Core.new).map Core.reset) := rfl
      have hempty : (∅ : SpaceShared.Assignment).filter
          (fun id _ => (Ledger.new overhead).contains id) = ∅ := rfl
      simp only [reshare, Processor.new, hempty, hshare, hfree]
  · exact fun _ _ _ _ _ _ => reshare_reshare _
  · exact fun _ _ _ _ _ => reshare_reshare _
  · exact fun _ _ _ => reshare_reshare _

end Processor

end Datacenter
