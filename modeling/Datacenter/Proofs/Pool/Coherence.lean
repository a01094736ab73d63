import Datacenter.Binary64.Basic
import Datacenter.Proofs.Pool.Preservation

/-!
# Coherence of the registry

`Pool.Coherent` spells out how the records about the machines of a pool hang together: where a
machine resides and where it goes can be read off the registry, and every host has on file exactly
what follows from that. `Pool.coherent_of_reachable` says that this holds in every reachable pool.

The proof is that of the bookkeeping (`Datacenter/Proofs/Pool/Preservation.lean`), read record by
record.
-/

namespace Datacenter

variable {α : Type} [Scalar α]

/-- A machine has a seat on a host if it resides there or is on its way there. -/
def Host.HasSeat (h : Host α) (k : Nat) : Prop :=
  h.residents.contains k = true ∨ h.incoming.contains k = true

omit [Scalar α] in
theorem Host.hasSeat_iff {h : Host α} {k : Nat} : h.HasSeat k ↔ (h.entry k).isSeated = true := by
  rw [Entry.isSeated, Bool.or_eq_true]
  rfl

namespace Pool

/-- The records about the machines of a pool hang together. -/
structure Coherent (p : Pool α) : Prop where
  /-- The id of a host is its position. -/
  host_id : ∀ (i : Nat) (h : Host α), p.hosts[i]? = some h → h.id = i
  /-- A machine is registered under its id. -/
  vm_id : ∀ (k : Nat) (v : Vm α), p.vms.find? k = some v → v.id = k
  /-- Machines reside on known hosts. -/
  placed : ∀ (k : Nat) (v : Vm α) (i : Nat), p.vms.find? k = some v → v.host = some i →
    i < p.hosts.length
  /-- A host has a machine as a resident exactly if the machine says so. -/
  resident_iff : ∀ (i : Nat) (h : Host α), p.hosts[i]? = some h → ∀ k,
    h.residents.contains k = true ↔ ∃ v, p.vms.find? k = some v ∧ v.host = some i
  /-- A host expects a machine exactly if it is the target of its migration. -/
  incoming_iff : ∀ (i : Nat) (h : Host α), p.hosts[i]? = some h → ∀ k,
    h.incoming.contains k = true ↔ p.migrations.find? k = some i
  /-- A machine that migrates is leaving a host for another, known one. -/
  migrating : ∀ (k t : Nat), p.migrations.find? k = some t → t < p.hosts.length
    ∧ ∃ v s, p.vms.find? k = some v ∧ v.migration = .leaving ∧ v.host = some s ∧ s ≠ t
  /-- All other machines are settled. -/
  settled : ∀ (k : Nat) (v : Vm α), p.vms.find? k = some v → p.migrations.find? k = none →
    v.migration = .settled
  /-- Something is set aside exactly for the machines that have a seat. -/
  provision_iff : ∀ (i : Nat) (h : Host α), p.hosts[i]? = some h → ∀ k,
    h.provisions.contains k = true ↔ h.HasSeat k
  /-- What is set aside for a machine is what it needs. -/
  provision : ∀ (i : Nat) (h : Host α), p.hosts[i]? = some h → ∀ k r,
    h.provisions.find? k = some r → ∃ v, p.vms.find? k = some v ∧ r = .of v
  /-- Exactly the machines that have a seat have a request. -/
  request_iff : ∀ (i : Nat) (h : Host α), p.hosts[i]? = some h → ∀ k,
    h.processor.ledger.requests.contains k = true ↔ h.HasSeat k
  /-- Only requests of machines that migrate are subject to the overhead of a migration. -/
  overhead : ∀ (i : Nat) (h : Host α), p.hosts[i]? = some h → ∀ k r,
    h.processor.ledger.requests.find? k = some r → r.inMigration = true →
    ∃ t, p.migrations.find? k = some t
  /-- Exactly the residents that migrate are flagged as leaving. -/
  leaving_iff : ∀ (i : Nat) (h : Host α), p.hosts[i]? = some h → ∀ k,
    h.processor.ledger.leaving.contains k = true
      ↔ h.residents.contains k = true ∧ ∃ t, p.migrations.find? k = some t
  /-- Exactly the machines that a host expects are flagged as arriving. -/
  arriving_iff : ∀ (i : Nat) (h : Host α), p.hosts[i]? = some h → ∀ k,
    h.processor.ledger.arriving.contains k = true ↔ h.incoming.contains k = true
  /-- A host on which a machine has a seat is on. -/
  active : ∀ (i : Nat) (h : Host α), p.hosts[i]? = some h → ∀ k, h.HasSeat k →
    h.isActive = true

/-- Right records hang together. -/
theorem Bookkeeping.coherent {p : Pool α} (hp : p.Bookkeeping) : p.Coherent where
  host_id := hp.hostId
  vm_id k v hv := (hp.registered k).id v hv
  placed k v i hv hi := (hp.registered k).placed v i hv hi
  resident_iff i h hi k := by
    have hres := (hp.agrees i h hi k).resident
    rw [show h.residents.contains k = (h.entry k).resident from rfl, hres, decide_eq_true_eq,
      Option.bind_eq_some_iff]
  incoming_iff i h hi k := by
    have hinc := (hp.agrees i h hi k).incoming
    rw [show h.incoming.contains k = (h.entry k).incoming from rfl, hinc, decide_eq_true_eq]
  migrating k t ht := by
    obtain ⟨hlt, v, s, hv, hs, hne⟩ := (hp.registered k).target t ht
    have hleaving := (hp.registered k).migration v hv
    rw [ht] at hleaving
    exact ⟨hlt, v, s, hv, hleaving, hs, hne⟩
  settled k v hv hnone := (hp.settled_iff hv).mpr hnone
  provision_iff i h hi k := by
    have hagrees := hp.agrees i h hi k
    rw [Host.hasSeat_iff, IdMap.contains_eq_isSome,
      show h.provisions.find? k = (h.entry k).provision from rfl, hagrees.provision]
    cases hseat : (h.entry k).isSeated with
    | false => simp
    | true =>
      obtain ⟨v, hv⟩ := hp.registered_of_isSeated hi hseat
      simp [hv]
  provision i h hi k r hr := by
    have hprov := (hp.agrees i h hi k).provision
    rw [show (h.entry k).provision = some r from hr] at hprov
    split at hprov
    · obtain ⟨v, hv, hr⟩ := Option.map_eq_some_iff.mp hprov.symm
      exact ⟨v, hv, hr.symm⟩
    · contradiction
  request_iff i h hi k := by
    rw [Host.hasSeat_iff, ← (hp.agrees i h hi k).request]
    rfl
  overhead i h hi k r hr hflag :=
    Option.isSome_iff_exists.mp ((hp.agrees i h hi k).flagged r hr hflag)
  leaving_iff i h hi k := by
    have hleaving := (hp.agrees i h hi k).leaving
    rw [show h.processor.ledger.leaving.contains k = (h.entry k).leaving from rfl, hleaving,
      Bool.and_eq_true, Option.isSome_iff_exists]
    rfl
  arriving_iff i h hi k := by
    have harriving := (hp.agrees i h hi k).arriving
    rw [show h.processor.ledger.arriving.contains k = (h.entry k).arriving from rfl, harriving]
    rfl
  active i h hi k hseat := by
    cases hactive : h.isActive with
    | true => rfl
    | false =>
      have hfree := hp.occupied i h hi hactive k
      rw [Host.hasSeat_iff.mp hseat] at hfree
      contradiction

/-- The registry of every reachable pool is coherent. -/
theorem coherent_of_reachable {p : Pool α} (hp : p.Reachable) : p.Coherent :=
  (bookkeeping_of_reachable hp).coherent

/-- A pool in which a machine migrates. -/
theorem coherent_of_reachable_sample : ∃ p : Pool Binary64,
    (Pool.new 0 5).performAll (sampleRun ++ [.startMigration 12 2]) = .ok p
      ∧ p.target? 12 = some 2 ∧ p.Coherent := by
  have hrun : ((Pool.new 0 5 : Pool Binary64).performAll
      (sampleRun ++ [.startMigration 12 2])).toOption.bind (·.target? 12) = some 2 := by
    decide +kernel
  have hops : ∀ op ∈ (sampleRun ++ [.startMigration 12 2] : List (Operation Binary64)),
      op.IsAdmissible := by
    intro op hop
    rcases List.mem_append.mp hop with hop | hop
    · exact isAdmissible_of_mem_sampleRun (by decide +kernel) op hop
    · rw [List.mem_singleton.mp hop]
      trivial
  cases hp : (Pool.new 0 5 : Pool Binary64).performAll (sampleRun ++ [.startMigration 12 2]) with
  | error fault =>
    rw [hp] at hrun
    contradiction
  | ok p =>
    rw [hp] at hrun
    exact ⟨p, rfl, hrun, coherent_of_reachable ((Reachable.new 0 5).performAll hops hp)⟩

end Pool

end Datacenter
