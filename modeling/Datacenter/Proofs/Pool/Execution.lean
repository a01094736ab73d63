import Datacenter.Proofs.Host.Load
import Datacenter.Proofs.Pool.Preservation

/-!
# Executing a plan

`Pool.During` lists the pools that come up while a plan is executed and the migrations it has
started are finished: after any number of its moves, after any number of its hosts have been marked,
and after any migrations have been finished, in any order.

Over exact numbers, and as long as no machine has a negative speed, a host never bears more than its
load at the start and the loads of the machines planned to come (`Pool.Underway`). A move that is
refused and a machine that leaves only lower the load.

## Shape of the proof

For every step there is a lemma about one host before and after it, and one about the machines. They
are put together in `Underway.start`, `Underway.mark` and `Underway.finish`, and lifted to lists of
steps by induction.
-/

namespace Datacenter

/-- The pools that come up while a plan is executed and its migrations are finished. -/
inductive Pool.During {α : Type} [Scalar α] (p : Pool α) (plan : MigrationPlan) :
    Pool α → Prop where
  /-- Some of the moves have been tried. -/
  | starting {q : Pool α} {count : Nat} {kept : IdSet} (tried : Nat) :
      Pool.startAll (plan.moves.take tried) p = .ok (count, kept, q) → During p plan q
  /-- All moves have been tried, and some of the hosts have been marked. -/
  | marking {q q' : Pool α} {count : Nat} {kept : IdSet} (marked : Nat) :
      Pool.startAll plan.moves p = .ok (count, kept, q) →
      Pool.markAllOff kept (plan.switchOff.keys.take marked) q = .ok q' → During p plan q'
  /-- The plan has been executed, and migrations have been finished. -/
  | finishing {q : Pool α} {count : Nat} (vms : List Nat) :
      p.execute plan = .ok (count, q) → During p plan (Pool.finishAll vms q).2

/-! ## What machines ask for -/

namespace Vm

/-- The two records of a machine make the same requests. -/
def SameDemand {α : Type} [Scalar α] (v v' : Vm α) : Prop :=
  v'.speed = v.speed ∧ ∀ time, v'.request time = v.request time

theorem SameDemand.refl {α : Type} [Scalar α] (v : Vm α) : v.SameDemand v :=
  ⟨rfl, fun _ => rfl⟩

theorem SameDemand.trans {α : Type} [Scalar α] {v v' v'' : Vm α} (h : v.SameDemand v')
    (h' : v'.SameDemand v'') : v.SameDemand v'' :=
  ⟨h'.1.trans h.1, fun time => (h'.2 time).trans (h.2 time)⟩

end Vm

/-- The requests of a machine are not negative if its speed is not. -/
theorem Request.IsOf.nonneg {r : Request ℚ} {v : Vm ℚ} (hr : r.IsOf v) (hspeed : 0 ≤ v.speed) :
    ∀ x ∈ r.share, 0 ≤ x := by
  obtain ⟨count, demand, hshare⟩ := hr
  intro x hx
  rw [hshare] at hx
  rw [List.eq_of_mem_replicate hx]
  exact mul_nonneg hspeed (Rational.clamp_nonneg demand)

theorem Request.IsOf.sum_nonneg {r : Request ℚ} {v : Vm ℚ} (hr : r.IsOf v) (hspeed : 0 ≤ v.speed) :
    0 ≤ r.share.sum :=
  List.sum_nonneg (hr.nonneg hspeed)

theorem Vm.loadAt_nonneg {v : Vm ℚ} (hspeed : 0 ≤ v.speed) (time : ℚ) : 0 ≤ v.loadAt time := by
  rw [loadAt, Rational.sum_eq]
  exact (Request.isOf_of v time).sum_nonneg hspeed

namespace Pool

/-- No machine has a negative speed. -/
def NonnegativeSpeeds (p : Pool ℚ) : Prop :=
  ∀ (k : Nat) (v : Vm ℚ), p.vms.find? k = some v → 0 ≤ v.speed

/-- The present load of a machine. -/
def loadOf (p : Pool ℚ) (k : Nat) : ℚ :=
  match p.vms.find? k with
  | some v => v.loadAt p.time
  | none => 0

/-- The load that moves bring to host `i`. -/
def plannedLoad (p : Pool ℚ) (moves : List (Nat × Nat)) (i : Nat) : ℚ :=
  ((moves.filter fun m => m.2 = i).map fun m => p.loadOf m.1).sum

theorem loadOf_nonneg {p : Pool ℚ} (hspeed : p.NonnegativeSpeeds) (k : Nat) : 0 ≤ p.loadOf k := by
  unfold loadOf
  split
  · exact Vm.loadAt_nonneg (hspeed k _ ‹_›) _
  · exact le_refl _

theorem plannedLoad_append (p : Pool ℚ) (moves moves' : List (Nat × Nat)) (i : Nat) :
    p.plannedLoad (moves ++ moves') i = p.plannedLoad moves i + p.plannedLoad moves' i := by
  rw [plannedLoad, List.filter_append, List.map_append, List.sum_append]
  rfl

theorem plannedLoad_singleton (p : Pool ℚ) (k t i : Nat) :
    p.plannedLoad [(k, t)] i = if t = i then p.loadOf k else 0 := by
  unfold plannedLoad
  by_cases h : t = i <;> simp [h]

theorem plannedLoad_nonneg {p : Pool ℚ} (hspeed : p.NonnegativeSpeeds) (moves : List (Nat × Nat))
    (i : Nat) : 0 ≤ p.plannedLoad moves i := by
  apply List.sum_nonneg
  intro x hx
  obtain ⟨m, -, rfl⟩ := List.mem_map.mp hx
  exact loadOf_nonneg hspeed m.1

/-- What is asked for on a host is not negative. -/
theorem request_nonneg {p : Pool ℚ} (hp : p.Bookkeeping) (hspeed : p.NonnegativeSpeeds) {i : Nat}
    {h : Host ℚ} (hh : p.hosts[i]? = some h) {k : Nat} {r : Request ℚ}
    (hr : (h.entry k).request = some r) : 0 ≤ r.share.sum := by
  obtain ⟨v, hv, hof⟩ := (hp.agrees i h hh k).asked r hr
  exact hof.sum_nonneg (hspeed k v hv)

/-! ## One step -/

/-- Starting a migration adds at most the load of the machine, and that to its target only. A host
that comes on is the target. -/
theorem startMigration_host {p q : Pool ℚ} {b : Bool} (hp : p.Bookkeeping)
    (hspeed : p.NonnegativeSpeeds) {k t : Nat} (hq : p.startMigration k t = .ok (b, q)) {i : Nat}
    {h' : Host ℚ} (hh' : q.hosts[i]? = some h') :
    ∃ h, p.hosts[i]? = some h ∧ h.Bears h' (if t = i then p.loadOf k else 0)
      ∧ (h'.isActive = true → h.isActive = true ∨ t = i) := by
  have hstay : ∀ h : Host ℚ, h.Bears h (if t = i then p.loadOf k else 0) := by
    intro h
    refine (Host.Bears.refl h).mono ?_
    split
    · exact loadOf_nonneg hspeed k
    · exact le_refl _
  rcases startMigration_outcome hq with ⟨-, rfl⟩ | ⟨v, source, h, h₁, hv, hs, hsettled, hne, hh, -,
    hexpect, hq⟩
  · exact ⟨h', hh', hstay h', .inl⟩
  have hid : v.id = k := (hp.registered k).id v hv
  have hloc : p.location? k = some source := by simp [location?, hv, hs]
  have hmig : p.migrations.find? k = none := (hp.settled_iff hv).mp hsettled
  -- the target knows nothing of the machine yet, so its request is a new one there
  have hblank : h.entry k = .blank :=
    hp.entry_eq_blank hh (by rw [hloc]; simpa using hne) (by simp [hmig])
  have hload : (v.request p.time).sum = p.loadOf k := by
    rw [loadOf, hv]
    exact (Rational.sum_eq _).symm
  have htarget : h.Bears h₁ (p.loadOf k) := by
    rw [← hload]
    refine Host.bears_expect ?_ (hload ▸ loadOf_nonneg hspeed k) hexpect
    rw [show (leaving v).id = k from hid, hblank]
    rfl
  rcases hq with ⟨-, rfl⟩ | ⟨-, rfl⟩
  case inl =>
    rw [getElem?_setHost hh] at hh'
    split at hh'
    case isTrue hi =>
      cases hh'
      subst hi
      exact ⟨h, hh, by rwa [if_pos rfl], fun _ => .inr rfl⟩
    case isFalse => exact ⟨h', hh', hstay h', .inl⟩
  case inr =>
    rw [getElem?_depart hh hne] at hh'
    split at hh'
    case isTrue hi =>
      cases hh'
      subst hi
      exact ⟨h, hh, by rwa [if_pos rfl], fun _ => .inr rfl⟩
    case isFalse hi =>
      split at hh'
      case isTrue =>
        obtain ⟨h₂, hh₂, rfl⟩ := Option.map_eq_some_iff.mp hh'
        refine ⟨h₂, hh₂, ?_, .inl⟩
        rw [if_neg (Ne.symm hi)]
        exact h₂.bears_markLeaving k
      case isFalse => exact ⟨h', hh', hstay h', .inl⟩

theorem startMigration_vm {p q : Pool ℚ} {b : Bool} {k t : Nat}
    (hq : p.startMigration k t = .ok (b, q)) {j : Nat} {v' : Vm ℚ}
    (hv' : q.vms.find? j = some v') : ∃ v, p.vms.find? j = some v ∧ v.SameDemand v' := by
  rcases startMigration_outcome hq with ⟨-, rfl⟩ | ⟨v, source, h, h₁, hv, -, -, -, -, -, -, hq⟩
  · exact ⟨v', hv', .refl v'⟩
  rcases hq with ⟨-, rfl⟩ | ⟨-, rfl⟩
  · exact ⟨v', hv', .refl v'⟩
  · rw [depart, IdMap.find?_insert] at hv'
    split at hv'
    · rename_i hj
      cases hv'
      rw [hj]
      exact ⟨v, hv, rfl, fun _ => rfl⟩
    · exact ⟨v', hv', .refl v'⟩

theorem startMigration_time {p q : Pool ℚ} {b : Bool} {k t : Nat}
    (hq : p.startMigration k t = .ok (b, q)) : q.time = p.time := by
  rcases startMigration_outcome hq with ⟨-, rfl⟩ | ⟨v, source, h, h₁, -, -, -, -, -, -, -, hq⟩
  · rfl
  · rcases hq with ⟨-, rfl⟩ | ⟨-, rfl⟩ <;> rfl

/-- Looking at a host again adds no load to any host and switches none on. -/
theorem switchOffIfPending_bears {p : Pool ℚ} {i j : Nat} {h' : Host ℚ}
    (hh' : (p.switchOffIfPending i).hosts[j]? = some h') :
    ∃ h, p.hosts[j]? = some h ∧ h.Bears h' 0 ∧ (h'.isActive = true → h.isActive = true) := by
  obtain ⟨h, hh, rfl | ⟨-, -, rfl⟩⟩ := switchOffIfPending_host p i hh'
  · exact ⟨h', hh, .refl h', id⟩
  · exact ⟨h, hh, ⟨rfl, rfl, by rw [add_zero]; exact le_refl _⟩, fun hon => nomatch hon⟩

/-- Finishing a migration adds no load to any host and switches none on. -/
theorem finishMigration_host {p : Pool ℚ} (hp : p.Bookkeeping) (hspeed : p.NonnegativeSpeeds)
    {k i : Nat} {h' : Host ℚ} (hh' : (p.finishMigration k).2.hosts[i]? = some h') :
    ∃ h, p.hosts[i]? = some h ∧ h.Bears h' 0 ∧ (h'.isActive = true → h.isActive = true) := by
  cases hmig : p.migrations.find? k with
  | none =>
    rw [finishMigration_of_none hmig] at hh'
    exact ⟨h', hh', .refl h', id⟩
  | some t =>
    obtain ⟨-, v, source, hv, hs, hne⟩ := (hp.registered k).target t hmig
    rw [finishMigration_of_some hmig hv hs] at hh'
    obtain ⟨h₁, hh₁, hoff⟩ := switchOffIfPending_bears hh'
    have harrive : ∃ h, p.hosts[i]? = some h ∧ h.Bears h₁ 0
        ∧ (h₁.isActive = true → h.isActive = true) := by
      rw [getElem?_arrive hne] at hh₁
      split at hh₁
      case isTrue =>
        obtain ⟨h, hh, rfl⟩ := Option.map_eq_some_iff.mp hh₁
        exact ⟨h, hh, h.bears_receive k, fun hon => (h.unchanged_receive k).2 ▸ hon⟩
      case isFalse =>
        split at hh₁
        case isTrue =>
          obtain ⟨h, hh, rfl⟩ := Option.map_eq_some_iff.mp hh₁
          exact ⟨h, hh, Host.bears_remove fun r => request_nonneg hp hspeed hh,
            fun hon => (h.unchanged_remove k).2 ▸ hon⟩
        case isFalse => exact ⟨h₁, hh₁, .refl h₁, id⟩
    obtain ⟨h, hh, hbears, hon⟩ := harrive
    refine ⟨h, hh, ?_, fun hon' => hon (hoff.2 hon')⟩
    simpa using hbears.trans hoff.1

theorem finishMigration_time {p : Pool ℚ} (hp : p.Bookkeeping) (k : Nat) :
    (p.finishMigration k).2.time = p.time := by
  cases hmig : p.migrations.find? k with
  | none => rw [finishMigration_of_none hmig]
  | some t =>
    obtain ⟨-, v, source, hv, hs, -⟩ := (hp.registered k).target t hmig
    rw [finishMigration_of_some hmig hv hs]
    exact switchOffIfPending_time _ source

theorem finishMigration_vm {p : Pool ℚ} (hp : p.Bookkeeping) {k j : Nat} {v' : Vm ℚ}
    (hv' : (p.finishMigration k).2.vms.find? j = some v') :
    ∃ v, p.vms.find? j = some v ∧ v.SameDemand v' := by
  cases hmig : p.migrations.find? k with
  | none =>
    rw [finishMigration_of_none hmig] at hv'
    exact ⟨v', hv', .refl v'⟩
  | some t =>
    obtain ⟨-, v, source, hv, hs, -⟩ := (hp.registered k).target t hmig
    rw [finishMigration_of_some hmig hv hs, switchOffIfPending_vms, arrive, modifyHost, modifyHost,
      IdMap.find?_insert] at hv'
    split at hv'
    · rename_i hj
      cases hv'
      rw [hj]
      refine ⟨v, hv, rfl, fun _ => ?_⟩
      -- a machine that was placed keeps the time from which its age counts
      simp [Vm.request, Vm.utilization, Vm.moveTo, hs]
    · exact ⟨v', hv', .refl v'⟩

/-! ## Runs of steps -/

/-- `q` comes up when moves planned for `p` are executed: `moves` have been tried so far. -/
structure Underway (p q : Pool ℚ) (moves : List (Nat × Nat)) : Prop where
  bookkeeping : q.Bookkeeping
  time : q.time = p.time
  vm : ∀ (k : Nat) (v' : Vm ℚ), q.vms.find? k = some v' →
    ∃ v, p.vms.find? k = some v ∧ v.SameDemand v'
  host : ∀ (i : Nat) (h' : Host ℚ), q.hosts[i]? = some h' → ∃ h, p.hosts[i]? = some h
    ∧ h.Bears h' (p.plannedLoad moves i)
    ∧ (h'.isActive = true → h.isActive = true ∨ ∃ m ∈ moves, m.2 = i)

namespace Underway

variable {p q q' : Pool ℚ} {moves : List (Nat × Nat)}

theorem refl (hp : p.Bookkeeping) : p.Underway p [] where
  bookkeeping := hp
  time := rfl
  vm _ v hv := ⟨v, hv, .refl v⟩
  host _ h hh := ⟨h, hh, .refl h, .inl⟩

/-- More moves may have been tried. -/
theorem append (hq : p.Underway q moves) (hspeed : p.NonnegativeSpeeds)
    (moves' : List (Nat × Nat)) : p.Underway q (moves ++ moves') where
  bookkeeping := hq.bookkeeping
  time := hq.time
  vm := hq.vm
  host i h' hh' := by
    obtain ⟨h, hh, hbears, hon⟩ := hq.host i h' hh'
    refine ⟨h, hh, hbears.mono ?_, fun hactive => (hon hactive).imp_right ?_⟩
    · rw [plannedLoad_append]
      exact le_add_of_nonneg_right (plannedLoad_nonneg hspeed moves' i)
    · rintro ⟨m, hm, hi⟩
      exact ⟨m, List.mem_append_left _ hm, hi⟩

theorem nonnegativeSpeeds (hq : p.Underway q moves) (hspeed : p.NonnegativeSpeeds) :
    q.NonnegativeSpeeds := by
  intro k v' hv'
  obtain ⟨v, hv, hsame, -⟩ := hq.vm k v' hv'
  rw [hsame]
  exact hspeed k v hv

/-- The loads of machines have not changed. -/
theorem loadOf_le (hq : p.Underway q moves) (hspeed : p.NonnegativeSpeeds) (k : Nat) :
    q.loadOf k ≤ p.loadOf k := by
  cases hv' : q.vms.find? k with
  | none =>
    rw [show q.loadOf k = 0 by rw [loadOf, hv']]
    exact loadOf_nonneg hspeed k
  | some v' =>
    obtain ⟨v, hv, -, hrequest⟩ := hq.vm k v' hv'
    rw [loadOf, loadOf, hv', hv]
    show v'.loadAt q.time ≤ v.loadAt p.time
    rw [Vm.loadAt, Vm.loadAt, hrequest, hq.time]

/-- One more move is tried. -/
theorem start (hq : p.Underway q moves) (hspeed : p.NonnegativeSpeeds) {k t : Nat} {b : Bool}
    (hstart : q.startMigration k t = .ok (b, q')) : p.Underway q' (moves ++ [(k, t)]) where
  bookkeeping := hq.bookkeeping.startMigration hstart
  time := (startMigration_time hstart).trans hq.time
  vm j v'' hv'' := by
    obtain ⟨v', hv', hsame'⟩ := startMigration_vm hstart hv''
    obtain ⟨v, hv, hsame⟩ := hq.vm j v' hv'
    exact ⟨v, hv, hsame.trans hsame'⟩
  host i h'' hh'' := by
    obtain ⟨h', hh', hbears', hon'⟩ :=
      startMigration_host hq.bookkeeping (hq.nonnegativeSpeeds hspeed) hstart hh''
    obtain ⟨h, hh, hbears, hon⟩ := hq.host i h' hh'
    -- the loads at that moment are those of the start, so the sum grows as planned
    refine ⟨h, hh, (hbears.trans hbears').mono ?_, fun hactive => ?_⟩
    · rw [plannedLoad_append, plannedLoad_singleton]
      have hload := hq.loadOf_le hspeed k
      split <;> linarith
    · rcases hon' hactive with hactive | hi
      · refine (hon hactive).imp_right ?_
        rintro ⟨m, hm, hi⟩
        exact ⟨m, List.mem_append_left _ hm, hi⟩
      · exact .inr ⟨(k, t), List.mem_append_right _ (List.mem_singleton_self _), hi⟩

theorem startAll {rest : List (Nat × Nat)} {count : Nat} {kept : IdSet}
    (hq : p.Underway q moves) (hspeed : p.NonnegativeSpeeds)
    (hstart : Pool.startAll rest q = .ok (count, kept, q')) : p.Underway q' (moves ++ rest) := by
  induction rest generalizing q q' moves count kept with
  | nil =>
    cases hstart
    simpa using hq
  | cons m rest ih =>
    obtain ⟨b, q₁, count', kept', hfirst, hrest⟩ := startAll_cons hstart
    have hq₂ := ih (hq.start hspeed hfirst) hrest
    rwa [List.append_assoc] at hq₂

/-- Steps that neither load hosts nor switch them on. -/
theorem ease (hq : p.Underway q moves) (hbook : q'.Bookkeeping) (htime : q'.time = q.time)
    (hvm : ∀ (k : Nat) (v' : Vm ℚ), q'.vms.find? k = some v' →
      ∃ v, q.vms.find? k = some v ∧ v.SameDemand v')
    (hhost : ∀ (i : Nat) (h' : Host ℚ), q'.hosts[i]? = some h' → ∃ h, q.hosts[i]? = some h
      ∧ h.Bears h' 0 ∧ (h'.isActive = true → h.isActive = true)) :
    p.Underway q' moves where
  bookkeeping := hbook
  time := htime.trans hq.time
  vm k v'' hv'' := by
    obtain ⟨v', hv', hsame'⟩ := hvm k v'' hv''
    obtain ⟨v, hv, hsame⟩ := hq.vm k v' hv'
    exact ⟨v, hv, hsame.trans hsame'⟩
  host i h'' hh'' := by
    obtain ⟨h', hh', hbears', hon'⟩ := hhost i h'' hh''
    obtain ⟨h, hh, hbears, hon⟩ := hq.host i h' hh'
    refine ⟨h, hh, ?_, fun hactive => hon (hon' hactive)⟩
    simpa using hbears.trans hbears'

theorem markAllOff {kept : IdSet} {hosts : List Nat} (hq : p.Underway q moves)
    (hmark : Pool.markAllOff kept hosts q = .ok q') : p.Underway q' moves := by
  refine markAllOff_induction (motive := (p.Underway · moves)) hmark (fun {q i h} _ hq => ?_) hq
  have hmarked : p.Underway { q with pendingOff := q.pendingOff.add i } moves :=
    hq.ease ⟨hq.bookkeeping.hostId, hq.bookkeeping.registered, hq.bookkeeping.agrees,
      hq.bookkeeping.occupied⟩ rfl (fun _ v hv => ⟨v, hv, .refl v⟩)
      (fun _ h hh => ⟨h, hh, .refl h, id⟩)
  apply hmarked.ease (hmarked.bookkeeping.switchOffIfPending i)
  · exact switchOffIfPending_time _ i
  · intro k v hv
    rw [switchOffIfPending_vms] at hv
    exact ⟨v, hv, .refl v⟩
  · exact fun j h' hh' => switchOffIfPending_bears hh'

theorem finishAll (hq : p.Underway q moves) (hspeed : p.NonnegativeSpeeds) (vms : List Nat) :
    p.Underway (Pool.finishAll vms q).2 moves := by
  induction vms generalizing q with
  | nil => exact hq
  | cons k vms ih =>
    refine ih (q := (q.finishMigration k).2) (hq.ease (hq.bookkeeping.finishMigration k)
      (finishMigration_time hq.bookkeeping k) ?_ ?_)
    · exact fun j v' hv' => finishMigration_vm hq.bookkeeping hv'
    · exact fun i h' hh' =>
        finishMigration_host hq.bookkeeping (hq.nonnegativeSpeeds hspeed) hh'

/-- Whatever comes up during an execution, all moves of the plan may have been tried. -/
theorem of_during {plan : MigrationPlan} (hp : p.Bookkeeping) (hspeed : p.NonnegativeSpeeds)
    (hq : p.During plan q) : p.Underway q plan.moves := by
  cases hq with
  | starting tried hstart =>
    have htried := (refl hp).startAll hspeed hstart
    rw [List.nil_append] at htried
    -- moves that have not been tried only raise the bound
    have hall := htried.append hspeed (plan.moves.drop tried)
    rwa [List.take_append_drop] at hall
  | marking marked hstart hmark =>
    have hall := (refl hp).startAll hspeed hstart
    exact hall.markAllOff hmark
  | finishing vms hexecute =>
    obtain ⟨kept, r, hstart, hmark⟩ := execute_outcome hexecute
    have hall := (refl hp).startAll hspeed hstart
    exact (hall.markAllOff hmark).finishAll hspeed vms

end Underway

end Pool

end Datacenter
