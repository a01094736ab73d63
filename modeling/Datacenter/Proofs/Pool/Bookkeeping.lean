import Datacenter.Pool.Basic
import Datacenter.Proofs.Host.Entry

/-!
# The bookkeeping of a pool

Where a machine resides and where it goes is recorded in eight places: by the machine itself, by the
pool's migrations, and by every host in two sets of ids, the provisions, the requests of the ledger
and the ledger's two sets of flags. `Pool.Bookkeeping` says that all these records are right.

The records about one machine say nothing about another one. `Entry.Agrees` compares the entry of a
machine on a host with what the registry knows of that machine, and `Registered` says what the
registry may know. `Pool.Bookkeeping` asks for both, machine by machine. An operation concerns one
machine, so by `Bookkeeping.of_change` only the entries of that machine have to be looked at
afterwards.
-/

namespace Datacenter

variable {α : Type} [Scalar α]

/-! ## One machine -/

/-- A request that a machine may have made: the same for some number of cores, and of each core some
fraction. -/
def Request.IsOf (r : Request α) (v : Vm α) : Prop :=
  ∃ count demand, r.share = List.replicate count (v.speed * Scalar.clamp demand 0 1)

theorem Request.isOf_of (v : Vm α) (time : α) : (Request.of v (v.request time)).IsOf v :=
  ⟨v.vcpus, _, rfl⟩

/-- What the entry of a machine on host `i` has to say if the registry has the record `vm?` of the
machine and `target?` as the target of its migration. -/
structure Entry.Agrees (e : Entry α) (i : Nat) (vm? : Option (Vm α)) (target? : Option Nat) :
    Prop where
  resident : e.resident = decide (vm?.bind (·.host) = some i)
  incoming : e.incoming = decide (target? = some i)
  provision : e.provision = if e.isSeated then vm?.map .of else none
  request : e.request.isSome = e.isSeated
  arriving : e.arriving = e.incoming
  leaving : e.leaving = (e.resident && target?.isSome)
  flagged : ∀ r, e.request = some r → r.inMigration = true → target?.isSome = true
  asked : ∀ r, e.request = some r → ∃ v, vm? = some v ∧ r.IsOf v

/-- What the registry of a pool with `n` hosts may know of the machine with id `k`. -/
structure Registered (n k : Nat) (vm? : Option (Vm α)) (target? : Option Nat) : Prop where
  id : ∀ v, vm? = some v → v.id = k
  placed : ∀ v i, vm? = some v → v.host = some i → i < n
  target : ∀ t, target? = some t → t < n ∧ ∃ v s, vm? = some v ∧ v.host = some s ∧ s ≠ t
  migration : ∀ v, vm? = some v →
    v.migration = if target?.isSome then .leaving else .settled

omit [Scalar α] in
/-- What has to be checked of the record of a machine. -/
theorem Registered.of_some {n k : Nat} {v : Vm α} {target? : Option Nat} (hid : v.id = k)
    (hplaced : ∀ i, v.host = some i → i < n)
    (htarget : ∀ t, target? = some t → t < n ∧ ∃ s, v.host = some s ∧ s ≠ t)
    (hmigration : v.migration = if target?.isSome then .leaving else .settled) :
    Registered n k (some v) target? where
  id := by
    rintro _ ⟨⟩
    exact hid
  placed := by
    rintro _ i ⟨⟩
    exact hplaced i
  target t ht := by
    obtain ⟨hlt, s, hs⟩ := htarget t ht
    exact ⟨hlt, v, s, rfl, hs⟩
  migration := by
    rintro _ ⟨⟩
    exact hmigration

namespace Entry.Agrees

variable {e : Entry α} {i : Nat} {vm? : Option (Vm α)} {target? : Option Nat}

/-- A machine that has nothing to do with a host has a blank entry there. -/
theorem eq_blank (h : e.Agrees i vm? target?) (hs : vm?.bind (·.host) ≠ some i)
    (ht : target? ≠ some i) : e = .blank := by
  have hres : e.resident = false := by rw [h.resident, decide_eq_false hs]
  have hinc : e.incoming = false := by rw [h.incoming, decide_eq_false ht]
  have hseat : e.isSeated = false := by rw [isSeated, hres, hinc]; rfl
  have hprov : e.provision = none := by rw [h.provision, hseat]; rfl
  have hreq : e.request = none := by simpa using h.request.trans hseat
  have harr : e.arriving = false := by rw [h.arriving, hinc]
  have hleave : e.leaving = false := by rw [h.leaving, hres]; rfl
  exact Entry.ext hres hinc hprov hreq harr hleave

theorem blank (hs : vm?.bind (·.host) ≠ some i) (ht : target? ≠ some i) :
    (Entry.blank : Entry α).Agrees i vm? target? where
  resident := (decide_eq_false hs).symm
  incoming := (decide_eq_false ht).symm
  provision := rfl
  request := rfl
  arriving := rfl
  leaving := rfl
  flagged := fun _ hr => nomatch hr
  asked := fun _ hr => nomatch hr

end Entry.Agrees

/-- How host `i` may change with the records about machine `k`: only in the entry of that machine,
which agrees with the new records. The host stays on unless it was off and the machine got no seat
there. -/
structure Host.Adapts (h h' : Host α) (k i : Nat) (vm? : Option (Vm α)) (target? : Option Nat) :
    Prop where
  id : h'.id = h.id
  others : ∀ j, j ≠ k → h'.entry j = h.entry j
  agrees : (h'.entry k).Agrees i vm? target?
  occupied : h'.isActive = false →
    h.isActive = false ∧ ((h.entry k).isSeated = false → (h'.entry k).isSeated = false)

namespace Host.Adapts

variable {h : Host α} {k i : Nat} {vm? : Option (Vm α)} {target? : Option Nat}

/-- A host that the machine has nothing to do with, before and after. -/
theorem untouched (hblank : h.entry k = .blank) (hs : vm?.bind (·.host) ≠ some i)
    (ht : target? ≠ some i) : h.Adapts h k i vm? target? where
  id := rfl
  others := fun _ _ => rfl
  agrees := by
    rw [hblank]
    exact .blank hs ht
  occupied := fun hoff => ⟨hoff, fun hseat => hseat⟩

/-- A host that the machine has left. -/
theorem remove (hs : vm?.bind (·.host) ≠ some i) (ht : target? ≠ some i) :
    h.Adapts (h.remove k) k i vm? target? where
  id := rfl
  others j hj := by rw [entry_remove, if_neg hj]
  agrees := by
    rw [entry_remove, if_pos rfl]
    exact .blank hs ht
  occupied hoff := by
    rw [entry_remove, if_pos rfl]
    exact ⟨hoff, fun _ => rfl⟩

end Host.Adapts

/-! ## All machines -/

namespace Pool

/-- The records of a pool about all of its machines are right, and only hosts that are on hold
any. -/
structure Bookkeeping (p : Pool α) : Prop where
  hostId : ∀ (i : Nat) (h : Host α), p.hosts[i]? = some h → h.id = i
  registered : ∀ k, Registered p.hosts.length k (p.vms.find? k) (p.migrations.find? k)
  agrees : ∀ (i : Nat) (h : Host α), p.hosts[i]? = some h →
    ∀ k, (h.entry k).Agrees i (p.vms.find? k) (p.migrations.find? k)
  occupied : ∀ (i : Nat) (h : Host α), p.hosts[i]? = some h →
    h.isActive = false → ∀ k, (h.entry k).isSeated = false

namespace Bookkeeping

variable {p q : Pool α}

/-- A change that concerns one machine keeps the bookkeeping if it keeps the records about this
machine right. -/
theorem of_change (hp : p.Bookkeeping) (k₀ : Nat) (hn : q.hosts.length = p.hosts.length)
    (hvms : ∀ k, k ≠ k₀ → q.vms.find? k = p.vms.find? k)
    (hmig : ∀ k, k ≠ k₀ → q.migrations.find? k = p.migrations.find? k)
    (hhosts : ∀ (i : Nat) (h' : Host α), q.hosts[i]? = some h' → ∃ h : Host α,
      p.hosts[i]? = some h ∧ h.Adapts h' k₀ i (q.vms.find? k₀) (q.migrations.find? k₀))
    (hreg : Registered q.hosts.length k₀ (q.vms.find? k₀) (q.migrations.find? k₀)) :
    q.Bookkeeping where
  hostId i h' hi := by
    obtain ⟨h, hh, hstep⟩ := hhosts i h' hi
    rw [hstep.id, hp.hostId i h hh]
  registered k := by
    by_cases hk : k = k₀
    · rw [hk]
      exact hreg
    · rw [hvms k hk, hmig k hk, hn]
      exact hp.registered k
  agrees i h' hi k := by
    obtain ⟨h, hh, hstep⟩ := hhosts i h' hi
    by_cases hk : k = k₀
    · rw [hk]
      exact hstep.agrees
    · rw [hvms k hk, hmig k hk, hstep.others k hk]
      exact hp.agrees i h hh k
  occupied i h' hi hoff k := by
    obtain ⟨h, hh, hstep⟩ := hhosts i h' hi
    obtain ⟨hoff, hseat⟩ := hstep.occupied hoff
    by_cases hk : k = k₀
    · rw [hk]
      exact hseat (hp.occupied i h hh hoff k₀)
    · rw [hstep.others k hk]
      exact hp.occupied i h hh hoff k

/-- A change that leaves every entry and every machine's place alone keeps the bookkeeping. A host
may be switched off if it is empty. -/
theorem of_same_entries (hp : p.Bookkeeping) (hn : q.hosts.length = p.hosts.length)
    (hvms : ∀ k, q.vms.find? k = p.vms.find? k)
    (hmig : ∀ k, q.migrations.find? k = p.migrations.find? k)
    (hhosts : ∀ (i : Nat) (h' : Host α), q.hosts[i]? = some h' →
      ∃ h : Host α, p.hosts[i]? = some h ∧ h'.id = h.id
      ∧ (∀ k, h'.entry k = h.entry k)
      ∧ (h'.isActive = false → h.isActive = false ∨ h.isEmpty = true)) :
    q.Bookkeeping where
  hostId i h' hi := by
    obtain ⟨h, hh, hid, -⟩ := hhosts i h' hi
    rw [hid, hp.hostId i h hh]
  registered k := by
    rw [hvms, hmig, hn]
    exact hp.registered k
  agrees i h' hi k := by
    obtain ⟨h, hh, -, hsame, -⟩ := hhosts i h' hi
    rw [hvms, hmig, hsame]
    exact hp.agrees i h hh k
  occupied i h' hi hoff k := by
    obtain ⟨h, hh, -, hsame, hactive⟩ := hhosts i h' hi
    rw [hsame]
    rcases hactive hoff with hoff | hempty
    · exact hp.occupied i h hh hoff k
    · exact Host.isEmpty_iff.mp hempty k

/-- A machine that is on no host has a blank entry everywhere. -/
theorem entry_eq_blank (hp : p.Bookkeeping) {i k : Nat} {h : Host α} (hh : p.hosts[i]? = some h)
    (hl : p.location? k ≠ some i) (ht : p.migrations.find? k ≠ some i) : h.entry k = .blank :=
  (hp.agrees i h hh k).eq_blank hl ht

/-- Only placed machines migrate. -/
theorem not_migrating (hp : p.Bookkeeping) {k : Nat} (h : p.location? k = none) :
    p.migrations.find? k = none := by
  cases ht : p.migrations.find? k with
  | none => rfl
  | some t =>
    obtain ⟨-, v, s, hv, hs, -⟩ := (hp.registered k).target t ht
    simp [location?, hv, hs] at h

/-- A machine does not migrate to the host it leaves. -/
theorem target_ne (hp : p.Bookkeeping) {k s : Nat} (hs : p.location? k = some s) :
    p.migrations.find? k ≠ some s := by
  intro ht
  obtain ⟨-, v, s', hv, hs', hne⟩ := (hp.registered k).target s ht
  rw [location?, hv, Option.bind_some, hs'] at hs
  exact hne (Option.some.inj hs)

/-- A machine that is not settled has a target. -/
theorem settled_iff (hp : p.Bookkeeping) {k : Nat} {v : Vm α} (hv : p.vms.find? k = some v) :
    v.migration = .settled ↔ p.migrations.find? k = none := by
  rw [(hp.registered k).migration v hv]
  cases p.migrations.find? k <;> simp

/-- Only registered machines have seats. -/
theorem registered_of_isSeated (hp : p.Bookkeeping) {i k : Nat} {h : Host α}
    (hh : p.hosts[i]? = some h) (hseat : (h.entry k).isSeated = true) :
    ∃ v, p.vms.find? k = some v := by
  have hagrees := hp.agrees i h hh k
  rw [Entry.isSeated, hagrees.resident, hagrees.incoming, Bool.or_eq_true, decide_eq_true_eq,
    decide_eq_true_eq] at hseat
  rcases hseat with hs | ht
  · obtain ⟨v, hv, -⟩ := Option.bind_eq_some_iff.mp hs
    exact ⟨v, hv⟩
  · obtain ⟨-, v, -, hv, -⟩ := (hp.registered k).target i ht
    exact ⟨v, hv⟩

/-- The residents of a host are the machines that reside on it. -/
theorem mem_residentsOf (hp : p.Bookkeeping) {i : Nat} {h : Host α} (hh : p.hosts[i]? = some h)
    {v : Vm α} : v ∈ p.residentsOf h ↔ p.vms.find? v.id = some v ∧ v.host = some i := by
  rw [residentsOf, List.mem_filterMap]
  constructor
  · rintro ⟨k, hk, hv⟩
    have hres : (h.entry k).resident = true := IdMap.mem_keys_iff.mp hk
    rw [(hp.agrees i h hh k).resident, decide_eq_true_eq, hv, Option.bind_some] at hres
    rw [(hp.registered k).id v hv]
    exact ⟨hv, hres⟩
  · rintro ⟨hv, hi⟩
    refine ⟨v.id, IdMap.mem_keys_iff.mpr ?_, hv⟩
    have hres := (hp.agrees i h hh v.id).resident
    rwa [hv, Option.bind_some, hi, decide_eq_true rfl] at hres

/-- The residents of a host are listed by id. -/
theorem map_id_residentsOf (hp : p.Bookkeeping) {i : Nat} {h : Host α}
    (hh : p.hosts[i]? = some h) : (p.residentsOf h).map (·.id) = h.residents.keys := by
  -- no resident is dropped from the list, since all of them are registered
  have hfind : ∀ k ∈ h.residents.keys, (p.vms.find? k).map (·.id) = some k := by
    intro k hk
    have hres : (h.entry k).resident = true := IdMap.mem_keys_iff.mp hk
    rw [(hp.agrees i h hh k).resident, decide_eq_true_eq] at hres
    obtain ⟨v, hv, -⟩ := Option.bind_eq_some_iff.mp hres
    rw [hv, Option.map_some, (hp.registered k).id v hv]
  rw [residentsOf]
  generalize h.residents.keys = ks at hfind
  induction ks with
  | nil => rfl
  | cons k ks ih =>
    obtain ⟨v, hv, hid⟩ := Option.map_eq_some_iff.mp (hfind k List.mem_cons_self)
    rw [List.filterMap_cons_some hv, List.map_cons, hid,
      ih fun j hj => hfind j (List.mem_cons_of_mem k hj)]

end Bookkeeping

end Pool

end Datacenter
