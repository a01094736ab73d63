import Datacenter.Proofs.Pool.Preservation

/-!
# Hosts that are left by their machines

A plan marks hosts to be switched off. `Pool.OffOnceVacated` is what such a host is meant to do from
then on: it is on and waits as long as a machine resides on it, and is off and waits no longer from
the moment the last one has left.

Whether a host is marked depends on the answers that its machines get while the plan is executed:
a move that is refused keeps the host on that the machine resides on (`Pool.contains_kept_iff`). A
host that no move goes to and that no machine is refused to leave does as it is meant to
(`Pool.offOnceVacated_execute`), and goes on doing so while migrations are finished and machines are
destroyed (`Pool.OffOnceVacated.performAll`). No machine comes to such a host, so it is only looked
at when one of its residents leaves it.
-/

namespace Datacenter

variable {α : Type} [Scalar α]

/-- Operations by which machines leave hosts and no machine starts on a way to one. -/
def Operation.IsDeparture : Operation α → Prop
  | finishMigration _ => True
  | destroy _ => True
  | _ => False

namespace Pool

variable {p q r : Pool α} {b : Bool}

/-! ## Answers -/

/-- When the turn of move `m` comes in the course of starting some moves, its start is answered with
`b`. -/
inductive Answers : Pool α → List (Nat × Nat) → Nat × Nat → Bool → Prop where
  /-- It is the turn of the move. -/
  | now {p q : Pool α} {m : Nat × Nat} {moves : List (Nat × Nat)} {b : Bool} :
      p.startMigration m.1 m.2 = .ok (b, q) → Answers p (m :: moves) m b
  /-- Another move is started first. -/
  | later {p q : Pool α} {first m : Nat × Nat} {moves : List (Nat × Nat)} {b b' : Bool} :
      p.startMigration first.1 first.2 = .ok (b', q) → Answers q moves m b →
      Answers p (first :: moves) m b

/-- A machine resides where it did while it migrates. -/
theorem location?_startMigration {vm target : Nat} (hq : p.startMigration vm target = .ok (b, q))
    (k : Nat) : q.location? k = p.location? k := by
  rcases startMigration_outcome hq with ⟨-, rfl⟩ | ⟨v, source, h, h', hv, -, -, -, -, -, -, hq⟩
  · rfl
  rcases hq with ⟨-, rfl⟩ | ⟨-, rfl⟩
  · rfl
  · rw [location?, location?, depart, IdMap.find?_insert]
    split
    · rename_i hk
      rw [hk, hv]
      rfl
    · rfl

/-- A refusal of the first move adds the host of its machine to those that are kept on. -/
theorem kept_cons {first : Nat × Nat} {moves : List (Nat × Nat)} {count : Nat} {kept : IdSet}
    (hq : startAll (first :: moves) p = .ok (count, kept, q)) :
    ∃ b p₁ count' kept', p.startMigration first.1 first.2 = .ok (b, p₁)
      ∧ startAll moves p₁ = .ok (count', kept', q)
      ∧ ∀ i, kept.contains i = true
        ↔ b = false ∧ p.location? first.1 = some i ∨ kept'.contains i = true := by
  obtain ⟨⟨b, p₁⟩, hstart, hq⟩ := Fault.bind_eq_ok.mp hq
  obtain ⟨⟨count', kept', p₂⟩, hrest, hq⟩ := Fault.bind_eq_ok.mp hq
  refine ⟨b, p₁, count', kept', hstart, ?_⟩
  dsimp only at hq
  cases b with
  | true =>
    cases hq
    exact ⟨hrest, by simp⟩
  | false =>
    cases hloc : p.location? first.1 with
    | none =>
      rw [hloc] at hq
      cases hq
      exact ⟨hrest, by simp⟩
    | some source =>
      rw [hloc] at hq
      cases hq
      exact ⟨hrest, by simp [eq_comm (a := source)]⟩

/-- The hosts that are kept on are those that a refused machine resides on. -/
theorem contains_kept_iff {moves : List (Nat × Nat)} {count : Nat} {kept : IdSet}
    (hq : startAll moves p = .ok (count, kept, q)) {i : Nat} :
    kept.contains i = true ↔ ∃ m, p.Answers moves m false ∧ p.location? m.1 = some i := by
  induction moves generalizing p count kept with
  | nil =>
    cases hq
    constructor
    · exact fun hi => nomatch hi
    · rintro ⟨m, hm, -⟩
      nomatch hm
  | cons first moves ih =>
    obtain ⟨b, p₁, count', kept', hstart, hrest, hkept⟩ := kept_cons hq
    simp only [hkept, ih hrest, location?_startMigration hstart]
    constructor
    · rintro (⟨rfl, hi⟩ | ⟨m, hm, hi⟩)
      · exact ⟨first, .now hstart, hi⟩
      · exact ⟨m, .later hstart hm, hi⟩
    · -- a move has one answer, since the pool after the first one is determined
      rintro ⟨m, hm, hi⟩
      cases hm with
      | now hnow =>
        obtain ⟨rfl, -⟩ := Prod.mk.inj (Except.ok.inj (hstart.symm.trans hnow))
        exact .inl ⟨rfl, hi⟩
      | later hfirst hm =>
        obtain ⟨-, rfl⟩ := Prod.mk.inj (Except.ok.inj (hstart.symm.trans hfirst))
        exact .inr ⟨m, hm, hi⟩

/-! ## A host that nothing comes to -/

/-- Host `i` has the machines that it had, is on if it was on and waits if it waited. -/
structure LeavesAside (p q : Pool α) (i : Nat) : Prop where
  host : ∀ h, p.hosts[i]? = some h → ∃ h', q.hosts[i]? = some h' ∧ h'.residents = h.residents
    ∧ h'.incoming = h.incoming ∧ h'.isActive = h.isActive
  pending : q.pendingOff.contains i = p.pendingOff.contains i

namespace LeavesAside

variable {i : Nat}

omit [Scalar α] in
theorem refl (p : Pool α) (i : Nat) : p.LeavesAside p i :=
  ⟨fun h hh => ⟨h, hh, rfl, rfl, rfl⟩, rfl⟩

omit [Scalar α] in
theorem of_sameHost (hhost : q.hosts[i]? = p.hosts[i]?)
    (hpending : q.pendingOff.contains i = p.pendingOff.contains i) : p.LeavesAside q i :=
  ⟨fun h hh => ⟨h, hhost.trans hh, rfl, rfl, rfl⟩, hpending⟩

omit [Scalar α] in
theorem trans (hpq : p.LeavesAside q i) (hqr : q.LeavesAside r i) : p.LeavesAside r i where
  host h hh := by
    obtain ⟨h', hh', hres, hin, hon⟩ := hpq.host h hh
    obtain ⟨h'', hh'', hres', hin', hon'⟩ := hqr.host h' hh'
    exact ⟨h'', hh'', hres'.trans hres, hin'.trans hin, hon'.trans hon⟩
  pending := hqr.pending.trans hpq.pending

/-- A machine that starts for another host may be marked as leaving, and that is all. -/
theorem startMigration {vm target : Nat} (hq : p.startMigration vm target = .ok (b, q))
    (hi : target ≠ i) : p.LeavesAside q i := by
  rcases startMigration_outcome hq with
    ⟨-, rfl⟩ | ⟨v, source, h, h', -, -, -, hne, hh, -, -, hq⟩
  · exact .refl q i
  rcases hq with ⟨-, rfl⟩ | ⟨-, rfl⟩
  · exact .of_sameHost (by rw [getElem?_setHost hh, if_neg (Ne.symm hi)]) rfl
  · refine ⟨fun h₁ hh₁ => ?_, ?_⟩
    · rw [getElem?_depart hh hne, if_neg (Ne.symm hi), hh₁]
      split
      · exact ⟨h₁.markLeaving vm, rfl, rfl, rfl, rfl⟩
      · exact ⟨h₁, rfl, rfl, rfl, rfl⟩
    · show (p.pendingOff.erase target).contains i = _
      simp [Ne.symm hi]

theorem startAll {moves : List (Nat × Nat)} {count : Nat} {kept : IdSet}
    (hq : Pool.startAll moves p = .ok (count, kept, q)) (hi : ∀ m ∈ moves, m.2 ≠ i) :
    p.LeavesAside q i := by
  induction moves generalizing p count kept with
  | nil =>
    cases hq
    exact .refl q i
  | cons m moves ih =>
    obtain ⟨hm, hmoves⟩ := List.forall_mem_cons.mp hi
    obtain ⟨b, p₁, count', kept', hstart, hrest⟩ := startAll_cons hq
    exact (startMigration hstart hm).trans (ih hrest hmoves)

omit [Scalar α] in
/-- Another host is looked at. -/
theorem switchOffIfPending (p : Pool α) {j : Nat} (hi : j ≠ i) :
    p.LeavesAside (p.switchOffIfPending j) i := by
  cases hj : p.hosts[j]? with
  | none =>
    have hsame : p.switchOffIfPending j = p := by rw [Pool.switchOffIfPending, hj]
    rw [hsame]
    exact .refl p i
  | some h =>
    refine .of_sameHost ?_ (Bool.eq_iff_iff.mpr ?_)
    · rw [getElem?_switchOffIfPending hj, if_neg fun hoff => hi hoff.1.symm]
    · rw [contains_switchOffIfPending hj]
      exact and_iff_left fun hoff => hi hoff.1.symm

omit [Scalar α] in
/-- Other hosts are marked, or this one is kept on. -/
theorem markAllOff {kept : IdSet} {hosts : List Nat} (hq : Pool.markAllOff kept hosts p = .ok q)
    (hi : i ∈ hosts → kept.contains i = true) : p.LeavesAside q i := by
  induction hosts generalizing p with
  | nil =>
    cases hq
    exact .refl q i
  | cons j hosts ih =>
    have hrest : i ∈ hosts → kept.contains i = true := fun h => hi (List.mem_cons_of_mem j h)
    unfold Pool.markAllOff at hq
    split at hq
    case isTrue => exact ih hq hrest
    case isFalse hkept =>
      obtain ⟨h, -, hq⟩ := Fault.bind_eq_ok.mp hq
      have hji : j ≠ i := by
        rintro rfl
        exact hkept (hi List.mem_cons_self)
      have hmarked : p.LeavesAside { p with pendingOff := p.pendingOff.add j } i :=
        .of_sameHost rfl (by simp [Ne.symm hji])
      exact (hmarked.trans (.switchOffIfPending _ hji)).trans (ih hq hrest)

end LeavesAside

/-! ## Hosts to be switched off -/

/-- No machine is on its way to host `i`. As long as one resides on it the host is on and waits to
be switched off, and from then on it is off and waits no longer. -/
def OffOnceVacated (p : Pool α) (i : Nat) : Prop :=
  ∃ h, p.hosts[i]? = some h ∧ h.incoming.isEmpty = true
    ∧ (h.residents.isEmpty = true → h.isActive = false ∧ p.pendingOff.contains i = false)
    ∧ (h.residents.isEmpty = false → h.isActive = true ∧ p.pendingOff.contains i = true)

variable {i : Nat}

omit [Scalar α] in
theorem LeavesAside.offOnceVacated (hpq : p.LeavesAside q i) (hp : p.OffOnceVacated i) :
    q.OffOnceVacated i := by
  obtain ⟨h, hh, hin, hempty, hfull⟩ := hp
  obtain ⟨h', hh', hres, hin', hon⟩ := hpq.host h hh
  refine ⟨h', hh', by rw [hin', hin], ?_, ?_⟩
  · rw [hres, hon, hpq.pending]
    exact hempty
  · rw [hres, hon, hpq.pending]
    exact hfull

omit [Scalar α] in
/-- A host that waits is switched off as soon as it is looked at when it is empty. -/
theorem offOnceVacated_switchOffIfPending {h : Host α} (hh : p.hosts[i]? = some h)
    (hin : h.incoming.isEmpty = true) (hon : h.isActive = true)
    (hwaits : p.pendingOff.contains i = true) : (p.switchOffIfPending i).OffOnceVacated i := by
  have hempty : h.isEmpty = h.residents.isEmpty := by rw [Host.isEmpty, hin, Bool.and_true]
  have hpending := contains_switchOffIfPending hh i
  have hhost := getElem?_switchOffIfPending hh i
  simp only [hempty, hwaits, true_and] at hpending hhost
  cases hres : h.residents.isEmpty with
  | true =>
    rw [hres, if_pos rfl] at hhost
    refine ⟨_, hhost, hin, fun _ => ⟨rfl, ?_⟩, fun hfull => ?_⟩
    · exact Bool.eq_false_iff.mpr fun hi => hpending.mp hi hres
    · rw [show h.residents.isEmpty = false from hfull] at hres
      contradiction
  | false =>
    rw [hres, if_neg Bool.false_ne_true] at hhost
    refine ⟨h, hhost.trans hh, hin, fun hempty => ?_, fun _ => ⟨hon, ?_⟩⟩
    · rw [hempty] at hres
      contradiction
    · exact hpending.mpr (by simp [hres])

omit [Scalar α] in
/-- Among the hosts that are marked is this one, unless it is kept on. -/
theorem offOnceVacated_markAllOff {kept : IdSet} {hosts : List Nat} {h : Host α}
    (hq : markAllOff kept hosts p = .ok q) (hnodup : hosts.Nodup) (hi : i ∈ hosts)
    (hkept : kept.contains i = false) (hh : p.hosts[i]? = some h)
    (hin : h.incoming.isEmpty = true) (hon : h.isActive = true) : q.OffOnceVacated i := by
  induction hosts generalizing p h with
  | nil => contradiction
  | cons j hosts ih =>
    obtain ⟨hj, hhosts⟩ := List.nodup_cons.mp hnodup
    unfold markAllOff at hq
    by_cases hji : j = i
    · subst hji
      rw [hkept, if_neg Bool.false_ne_true] at hq
      obtain ⟨-, -, hq⟩ := Fault.bind_eq_ok.mp hq
      -- the hosts after this one are other ones
      refine (LeavesAside.markAllOff hq fun hmem => absurd hmem hj).offOnceVacated ?_
      exact offOnceVacated_switchOffIfPending (p := { p with pendingOff := p.pendingOff.add j }) hh
        hin hon (by simp)
    · have hmem : i ∈ hosts := (List.mem_cons.mp hi).resolve_left fun h => hji h.symm
      split at hq
      case isTrue => exact ih hq hhosts hmem hh hin hon
      case isFalse =>
        obtain ⟨-, -, hq⟩ := Fault.bind_eq_ok.mp hq
        have haside := LeavesAside.switchOffIfPending (i := i)
          { p with pendingOff := p.pendingOff.add j } hji
        obtain ⟨h', hh', -, hin', hon'⟩ := haside.host h hh
        exact ih hq hhosts hmem hh' (by rw [hin', hin]) (by rw [hon', hon])

/-- A host that is marked, that no machine comes to and that none is refused to leave is switched
off once its machines have left. -/
theorem offOnceVacated_execute {plan : MigrationPlan} {count : Nat} {h : Host α}
    (hq : p.execute plan = .ok (count, q)) (hi : plan.switchOff.contains i = true)
    (havoided : ∀ m ∈ plan.moves, m.2 ≠ i) (hh : p.hosts[i]? = some h)
    (hin : h.incoming.isEmpty = true) (hon : h.isActive = true)
    (hstarted : ∀ m b, p.Answers plan.moves m b → p.location? m.1 = some i → b = true) :
    q.OffOnceVacated i := by
  obtain ⟨kept, r, hstart, hmark⟩ := execute_outcome hq
  obtain ⟨h', hh', -, hin', hon'⟩ := (LeavesAside.startAll hstart havoided).host h hh
  have hkept : kept.contains i = false := by
    rw [Bool.eq_false_iff, ne_eq, contains_kept_iff hstart]
    rintro ⟨m, hm, hloc⟩
    exact Bool.false_ne_true (hstarted m false hm hloc)
  exact offOnceVacated_markAllOff hmark plan.switchOff.nodup_keys (IdMap.mem_keys_iff.mpr hi) hkept
    hh' (by rw [hin', hin]) (by rw [hon', hon])

/-- A host that no machine comes to and that one is refused to leave stays as it is. -/
theorem leavesAside_execute {plan : MigrationPlan} {count : Nat}
    (hq : p.execute plan = .ok (count, q)) (havoided : ∀ m ∈ plan.moves, m.2 ≠ i)
    (hrefused : ∃ m, p.Answers plan.moves m false ∧ p.location? m.1 = some i) :
    p.LeavesAside q i := by
  obtain ⟨kept, r, hstart, hmark⟩ := execute_outcome hq
  exact (LeavesAside.startAll hstart havoided).trans <|
    .markAllOff hmark fun _ => (contains_kept_iff hstart).mpr hrefused

/-! ## Departures -/

namespace OffOnceVacated

/-- A machine that resides on the host leaves it, and the host is looked at. -/
theorem leave {vm : Nat} {h : Host α} (hp : p.OffOnceVacated i) (hh : p.hosts[i]? = some h)
    (hvm : h.residents.contains vm = true) (hh' : q.hosts[i]? = some (h.remove vm))
    (hpending : q.pendingOff = p.pendingOff) : (q.switchOffIfPending i).OffOnceVacated i := by
  obtain ⟨h₀, hh₀, hin, -, hfull⟩ := hp
  obtain rfl := Option.some.inj (hh.symm.trans hh₀)
  have hoccupied : h.residents.isEmpty = false := by
    rw [Bool.eq_false_iff, ne_eq, IdMap.isEmpty_iff]
    intro hnone
    rw [hnone vm] at hvm
    contradiction
  obtain ⟨hon, hwaits⟩ := hfull hoccupied
  refine offOnceVacated_switchOffIfPending hh' ?_ hon (by rwa [hpending])
  rw [IdMap.isEmpty_iff] at hin ⊢
  intro k
  simp [Host.remove, hin k]

/-- No machine migrates to the host. -/
theorem target_ne (hp : p.OffOnceVacated i) (hbook : p.Bookkeeping) (k : Nat) :
    p.migrations.find? k ≠ some i := by
  obtain ⟨h, hh, hin, -⟩ := hp
  have hnone : h.incoming.contains k = false := IdMap.isEmpty_iff.mp hin k
  have hagrees := (hbook.agrees i h hh k).incoming
  rw [Host.entry, hnone] at hagrees
  exact of_decide_eq_false hagrees.symm

/-- A machine resides on the host if the registry says so. -/
theorem contains_residents (hbook : p.Bookkeeping) {k : Nat} {h : Host α}
    (hh : p.hosts[i]? = some h) (hk : p.location? k = some i) : h.residents.contains k = true := by
  have hagrees := (hbook.agrees i h hh k).resident
  exact hagrees.trans (decide_eq_true hk)

theorem finishMigration (hp : p.OffOnceVacated i) (hbook : p.Bookkeeping) (vm : Nat) :
    (p.finishMigration vm).2.OffOnceVacated i := by
  cases hmig : p.migrations.find? vm with
  | none =>
    rw [finishMigration_of_none hmig]
    exact hp
  | some t =>
    obtain ⟨-, v, source, hv, hs, hne⟩ := (hbook.registered vm).target t hmig
    have ht : i ≠ t := by
      rintro rfl
      exact hp.target_ne hbook vm hmig
    rw [finishMigration_of_some hmig hv hs]
    have hget : (p.arrive vm v source t).hosts[i]? = _ := getElem?_arrive hne i
    rw [if_neg ht] at hget
    by_cases hi : i = source
    · subst hi
      obtain ⟨h, hh, -⟩ := id hp
      have hvm := contains_residents hbook hh (k := vm) (by simp [location?, hv, hs])
      rw [if_pos rfl, hh] at hget
      exact hp.leave hh hvm hget rfl
    · rw [if_neg hi] at hget
      have haside : p.LeavesAside (p.arrive vm v source t) i := .of_sameHost hget rfl
      exact (haside.trans (.switchOffIfPending _ (Ne.symm hi))).offOnceVacated hp

theorem destroy (hp : p.OffOnceVacated i) (hbook : p.Bookkeeping) (vm : Nat) :
    (p.destroy vm).2.OffOnceVacated i := by
  cases hloc : p.location? vm with
  | none =>
    rw [destroy_of_not_placed hloc]
    exact hp
  | some source =>
    rw [destroy_of_placed hloc]
    have hget := getElem?_vacate (hbook.target_ne hloc) i
    have hpending := vacate_pendingOff p vm source
    by_cases hi : i = source
    · subst hi
      obtain ⟨h, hh, -⟩ := id hp
      rw [if_pos (.inl rfl), hh] at hget
      exact hp.leave hh (contains_residents hbook hh hloc) hget hpending
    · rw [if_neg (not_or.mpr ⟨hi, hp.target_ne hbook vm⟩)] at hget
      have haside : p.LeavesAside (p.vacate vm source) i := .of_sameHost hget (by rw [hpending])
      exact (haside.trans (.switchOffIfPending _ (Ne.symm hi))).offOnceVacated hp

/-- However many machines leave whatever hosts, the host does as it is meant to. -/
theorem performAll {ops : List (Operation α)} (hp : p.OffOnceVacated i) (hbook : p.Bookkeeping)
    (hops : ∀ op ∈ ops, op.IsDeparture) :
    ∃ q, p.performAll ops = .ok q ∧ q.OffOnceVacated i := by
  induction ops generalizing p with
  | nil => exact ⟨p, rfl, hp⟩
  | cons op ops ih =>
    obtain ⟨hop, hrest⟩ := List.forall_mem_cons.mp hops
    cases op with
    | finishMigration vm =>
      exact ih (hp.finishMigration hbook vm) (hbook.finishMigration vm) hrest
    | destroy vm => exact ih (hp.destroy hbook vm) (hbook.destroy vm) hrest
    | _ => exact hop.elim

end OffOnceVacated

end Pool

end Datacenter
