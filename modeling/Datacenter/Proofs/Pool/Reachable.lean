import Datacenter.Pool.Lifecycle
import Datacenter.Pool.Migration
import Datacenter.Pool.Processing
import Datacenter.Pool.Scaling
import Datacenter.Proofs.Fault
import Datacenter.Settings.Error

/-!
# Reachable pools

`Operation` lists everything that can be done to a pool, and `Pool.perform` does it. A pool is
*reachable* if it comes out of an empty one by operations, granted or refused, one after the other.
An operation that faults has no pool to go on with and ends the sequence.

Two operations take something from outside. A host is added fresh: its cores are free, nothing is
registered on it, and the overhead of a migration has passed its check. A machine is added waiting
for a place: it resides nowhere and takes no part in a migration.
-/

namespace Datacenter

variable {α : Type} [Scalar α]

/-- A host before it has been in a pool. -/
inductive Host.IsFresh : Host α → Prop where
  /-- Free cores of some capacities under one of the two disciplines. -/
  | new (name : String) (capacities : List α) (discipline : Discipline) (overhead : α)
      (ram bandwidth storage : Nat)
      (unassigned : discipline = .timeShared ∨ discipline = .spaceShared ∅)
      (fraction : checkFraction .migrationOverhead overhead = .ok overhead) :
      IsFresh (.new name (.new (capacities.map .new) discipline overhead) ram bandwidth storage)

omit [Scalar α] in
/-- A machine that waits for a place. That is what may be registered: a machine is registered while
it waits for its placement, and only a pool gives it a place. New machines wait, and so do machines
that have never been placed. A copy of the record of a machine that resides on some host does not,
although it may be settled. -/
structure Vm.IsWaiting (vm : Vm α) : Prop where
  /-- The machine resides nowhere. -/
  host : vm.host = none
  /-- The machine takes no part in a migration. -/
  migration : vm.migration = .settled

theorem Vm.isWaiting_new (id vcpus : Nat) (speed : α) (ram bandwidth storage : Nat)
    (loadModel : LoadModel α) :
    (Vm.new id vcpus speed ram bandwidth storage loadModel).IsWaiting :=
  ⟨rfl, rfl⟩

/-- What can be done to a pool. -/
inductive Operation (α : Type) where
  /-- Sets the clock. -/
  | setTime (time : α)
  /-- Moves the clock forward. -/
  | advance (duration : α)
  /-- Adds a host. -/
  | addHost (host : Host α)
  /-- Registers a machine. -/
  | addVm (vm : Vm α)
  /-- Creates a machine on a host. -/
  | create (vm host : Nat)
  /-- Destroys a machine. -/
  | destroy (vm : Nat)
  /-- Starts the migration of a machine. -/
  | startMigration (vm target : Nat)
  /-- Finishes the migration of a machine. -/
  | finishMigration (vm : Nat)
  /-- Executes a plan. -/
  | execute (plan : MigrationPlan)
  /-- Changes a resource of a machine. -/
  | scale (vm : Nat) (resource : Resource) (delta : Int)
  /-- Switches a host on or off. -/
  | setHostActive (host : Nat) (on : Bool)
  /-- Puts a core of a host out of order. -/
  | failCore (host core : Nat)
  /-- Brings all requests up to date. -/
  | updateProcessing

/-- What may be handed to an operation from outside. -/
def Operation.IsAdmissible : Operation α → Prop
  | addHost host => host.IsFresh
  | addVm vm => vm.IsWaiting
  | _ => True

namespace Pool

/-- The pool after an operation, whatever its answer. -/
def perform (p : Pool α) : Operation α → Except Fault (Pool α)
  | .setTime time => .ok (p.setTime time)
  | .advance duration => .ok (p.advance duration)
  | .addHost host => (p.addHost host).map Prod.snd
  | .addVm vm => (p.addVm vm).map Prod.snd
  | .create vm host => (p.create vm host).map Prod.snd
  | .destroy vm => .ok (p.destroy vm).2
  | .startMigration vm target => (p.startMigration vm target).map Prod.snd
  | .finishMigration vm => .ok (p.finishMigration vm).2
  | .execute plan => (p.execute plan).map Prod.snd
  | .scale vm resource delta => (p.scale vm resource delta).map Prod.snd
  | .setHostActive host on => (p.setHostActive host on).map Prod.snd
  | .failCore host core => p.failCore host core
  | .updateProcessing => .ok p.updateProcessing

/-- The pools that come out of an empty one. -/
inductive Reachable : Pool α → Prop where
  /-- The pool without hosts and machines. -/
  | new (time : α) (historySize : Nat) : Reachable (.new time historySize)
  /-- One more operation. -/
  | perform {p q : Pool α} {op : Operation α} :
      Reachable p → op.IsAdmissible → p.perform op = .ok q → Reachable q

/-- The pool after operations, one after the other. -/
def performAll : List (Operation α) → Pool α → Except Fault (Pool α)
  | [], p => .ok p
  | op :: ops, p => do
    let p ← p.perform op
    performAll ops p

theorem Reachable.performAll {p q : Pool α} {ops : List (Operation α)} (hp : p.Reachable)
    (hops : ∀ op ∈ ops, op.IsAdmissible) (hq : p.performAll ops = .ok q) : q.Reachable := by
  induction ops generalizing p with
  | nil =>
    cases hq
    exact hp
  | cons op ops ih =>
    obtain ⟨p₁, hop, hrest⟩ := Fault.bind_eq_ok.mp hq
    have hp₁ := hp.perform (hops op List.mem_cons_self) hop
    exact ih hp₁ (fun op' hmem => hops op' (List.mem_cons_of_mem op hmem)) hrest

/-- A run of one more operation. -/
theorem performAll_concat {p q : Pool α} {ops : List (Operation α)} {op : Operation α} :
    p.performAll (ops ++ [op]) = .ok q ↔ ∃ r, p.performAll ops = .ok r ∧ r.perform op = .ok q := by
  induction ops generalizing p with
  | nil => simp [Pool.performAll, Fault.bind_eq_ok]
  | cons op' ops ih =>
    rw [List.cons_append, Pool.performAll, Pool.performAll, Fault.bind_eq_ok]
    simp only [ih, Fault.bind_eq_ok]
    constructor
    · rintro ⟨p₁, hp₁, r, hr, hq⟩
      exact ⟨r, ⟨p₁, hp₁, hr⟩, hq⟩
    · rintro ⟨r, ⟨p₁, hp₁, hr⟩, hq⟩
      exact ⟨p₁, hp₁, r, hr, hq⟩

/-- What holds of the empty pool and is kept by every operation of a run holds throughout the run.
-/
theorem throughout_induction {motive : Pool α → Prop} {ops : List (Operation α)} {time : α}
    {size : Nat} (hnew : motive (.new time size))
    (hstep : ∀ (n : Nat) (op : Operation α) (q r : Pool α), ops[n]? = some op →
      (Pool.new time size).performAll (ops.take n) = .ok q → motive q → q.perform op = .ok r →
      motive r) (n : Nat) {q : Pool α}
    (hq : (Pool.new time size).performAll (ops.take n) = .ok q) : motive q := by
  induction n generalizing q with
  | zero =>
    obtain rfl : Pool.new time size = q := Except.ok.inj hq
    exact hnew
  | succ n ih =>
    rw [List.take_add_one] at hq
    cases hop : ops[n]? with
    | none =>
      rw [hop, Option.toList_none, List.append_nil] at hq
      exact ih hq
    | some op =>
      rw [hop] at hq
      obtain ⟨r, hr, hq⟩ := performAll_concat.mp hq
      exact hstep n op r q hop hr (ih hr) hq

/-- What a run from the empty pool passes a check for can be relied on. -/
theorem exists_of_run {ops : List (Operation α)} (check : Pool α → Bool)
    (hops : ∀ op ∈ ops, op.IsAdmissible)
    (hcheck : ((Pool.new 0 5).performAll ops).toOption.any check = true) :
    ∃ p, (Pool.new 0 5).performAll ops = .ok p ∧ p.Reachable ∧ check p = true := by
  obtain ⟨p, hp, hcheck⟩ := Option.any_eq_true _ _ |>.mp hcheck
  have hrun := Fault.toOption_eq_some.mp hp
  exact ⟨p, hrun, (Reachable.new 0 5).performAll hops hrun, hcheck⟩

/-! ## A sample of a pool -/

/-- A host with two cores. -/
def sampleHost (name : String) : Host α :=
  .new name (.new (List.map .new [1000, 1000]) .timeShared 0) 100 100 100

/-- A machine with one core, which it uses in full. -/
def sampleVm (id : Nat) (speed : α) : Vm α :=
  .new id 1 speed 10 10 10 (.constant 1)

/-- Operations that load the first of five hosts heavily, the second and the fourth one lightly and
the third one by half, and switch the last one off. -/
def sampleRun : List (Operation α) :=
  [.addHost (sampleHost "a"), .addHost (sampleHost "b"), .addHost (sampleHost "c"),
    .addHost (sampleHost "d"), .addHost (sampleHost "e"), .addVm (sampleVm 10 900),
    .addVm (sampleVm 11 900), .addVm (sampleVm 12 200), .addVm (sampleVm 13 1000),
    .addVm (sampleVm 14 100), .create 10 0, .create 11 0, .create 12 1, .create 13 2, .create 14 3,
    .setHostActive 4 false]

/-- Hosts of which nothing is lost to migrations are fresh, whatever their cores. -/
theorem isFresh_of_capacities
    (hzero : (Scalar.isFinite (0 : α) && 0 ≤ (0 : α) && (0 : α) ≤ 1) = true) (name : String)
    (capacities : List α) {discipline : Discipline}
    (unassigned : discipline = .timeShared ∨ discipline = .spaceShared ∅) :
    (Host.new name (.new (capacities.map .new) discipline 0) 100 100 100).IsFresh :=
  .new name capacities discipline 0 100 100 100 unassigned (if_pos hzero)

theorem isFresh_sampleHost
    (hzero : (Scalar.isFinite (0 : α) && 0 ≤ (0 : α) && (0 : α) ≤ 1) = true) (name : String) :
    (sampleHost name : Host α).IsFresh :=
  isFresh_of_capacities hzero name [1000, 1000] (.inl rfl)

theorem isAdmissible_of_mem_sampleRun
    (hzero : (Scalar.isFinite (0 : α) && 0 ≤ (0 : α) && (0 : α) ≤ 1) = true) :
    ∀ op ∈ (sampleRun : List (Operation α)), op.IsAdmissible := by
  have hhost : ∀ name, (sampleHost name : Host α).IsFresh := isFresh_sampleHost hzero
  have hvm : ∀ id (speed : α), (sampleVm id speed).IsWaiting := fun _ _ => Vm.isWaiting_new ..
  simp [sampleRun, Operation.IsAdmissible, hhost, hvm]

/-- The sample may be followed by plans. -/
theorem isAdmissible_of_mem_sampleRun_execute
    (hzero : (Scalar.isFinite (0 : α) && 0 ≤ (0 : α) && (0 : α) ≤ 1) = true)
    (plan : MigrationPlan) :
    ∀ op ∈ (sampleRun ++ [.execute plan] : List (Operation α)), op.IsAdmissible := by
  intro op hop
  rcases List.mem_append.mp hop with hop | hop
  · exact isAdmissible_of_mem_sampleRun hzero op hop
  · rw [List.mem_singleton.mp hop]
    trivial

end Pool

end Datacenter
