import Datacenter.MigrationPlan
import Datacenter.Pool.Basic

/-!
# Migrations

While a machine migrates it holds resources on both hosts, and runs on both with the overhead of a
migration. It resides on the host it leaves until the migration is finished.

A plan is executed move by move. Moves whose conditions no longer hold are dropped, and a host that
a dropped move was to leave stays on; the other hosts that the plan marks are switched off as soon
as they are empty.
-/

namespace Datacenter.Pool

variable {α : Type} [Scalar α]

/-- Starts the migration of a machine. Refused if the machine is unknown, not placed or migrating,
if the target is unknown or the host it resides on, or if the machine does not fit there. -/
def startMigration (p : Pool α) (vm target : Nat) : Except Fault (Bool × Pool α) := do
  let some v := p.vms.find? vm | return (false, p)
  let some source := v.host | return (false, p)
  if v.isMigrating || source == target then return (false, p)
  let some h := p.hosts[target]? | return (false, p)
  if (← h.check v) != .success then return (false, p)
  let v := { v with migration := .leaving }
  let (expected, h) := h.expect v (v.request p.time)
  let p := { p with hosts := p.hosts.set target h }
  if !expected then return (false, p)
  return (true, { p.modifyHost source (·.markLeaving vm) with
    vms := p.vms.insert vm v
    migrations := p.migrations.insert vm target
    pendingOff := p.pendingOff.erase target })

/-- Finishes the migration of a machine. Refused if there is none. -/
def finishMigration (p : Pool α) (vm : Nat) : Bool × Pool α :=
  match p.migrations.find? vm with
  | none => (false, p)
  | some target =>
    let p := { p with migrations := p.migrations.erase vm }
    match p.vms.find? vm with
    | none => (false, p)
    | some v =>
      let source := v.host
      let p := { p with
        vms := p.vms.insert vm ({ v with migration := .settled }.moveTo (some target) p.time) }
      let p := match source with
        | some source => p.modifyHost source (·.remove vm)
        | none => p
      let p := p.modifyHost target (·.receive vm)
      (true, match source with
        | some source => p.switchOffIfPending source
        | none => p)

/-- Starts moves one after the other: the number of those started, the hosts that dropped moves
were to leave, and the pool after it. -/
def startAll : List (Nat × Nat) → Pool α → Except Fault (Nat × IdSet × Pool α)
  | [], p => .ok (0, ∅, p)
  | (vm, target) :: rest, p => do
    let source := p.location? vm
    let (started, p) ← p.startMigration vm target
    let (count, kept, p) ← startAll rest p
    if started then return (count + 1, kept, p)
    return (count, match source with
      | some source => kept.add source
      | none => kept, p)

/-- Marks hosts to be switched off once they are empty, which some may be already. -/
def markAllOff (kept : IdSet) : List Nat → Pool α → Except Fault (Pool α)
  | [], p => .ok p
  | host :: rest, p => do
    if kept.contains host then markAllOff kept rest p
    else
      let _ ← elementAt p.hosts host
      markAllOff kept rest
        ({ p with pendingOff := p.pendingOff.add host }.switchOffIfPending host)

/-- Executes a plan: the number of migrations started, and the pool after it. -/
def execute (p : Pool α) (plan : MigrationPlan) : Except Fault (Nat × Pool α) := do
  let (count, kept, p) ← startAll plan.moves p
  let p ← markAllOff kept plan.switchOff.keys p
  return (count, p)

/-- Finishes the migrations of machines one after the other: the machines for which there was one,
and the pool after it. -/
def finishAll : List Nat → Pool α → List Nat × Pool α
  | [], p => ([], p)
  | vm :: rest, p =>
    let (finished, p) := p.finishMigration vm
    let (others, p) := finishAll rest p
    (if finished then vm :: others else others, p)

end Datacenter.Pool
