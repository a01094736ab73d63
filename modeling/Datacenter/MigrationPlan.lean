import Datacenter.IdMap

/-!
# Migration plans

A plan, or migration map, says which machine goes to which host, in the order in which the moves
were planned, each machine at most once, and which hosts can be switched off once the moves away
from them are done.

Two plans are the same (`MigrationPlan.same`) if they move the same machines to the same hosts and
switch the same hosts off, in whatever order the moves were planned.
-/

namespace Datacenter

/-- Moves of machines to hosts, and hosts to switch off. -/
structure MigrationPlan where
  /-- The machines and the hosts they go to, in the order of planning. -/
  moves : List (Nat × Nat)
  /-- The hosts to switch off. -/
  switchOff : IdSet
deriving DecidableEq

namespace MigrationPlan

/-- The plan that changes nothing. -/
def empty : MigrationPlan := { moves := [], switchOff := ∅ }

/-- The host to which a machine goes. -/
def find? (plan : MigrationPlan) (vm : Nat) : Option Nat :=
  (plan.moves.find? (fun m => m.1 == vm)).map Prod.snd

/-- Whether a machine moves. -/
def contains (plan : MigrationPlan) (vm : Nat) : Bool :=
  (plan.find? vm).isSome

/-- Plans a move, unless one of the machine is planned already. -/
def insert? (plan : MigrationPlan) (vm host : Nat) : Option MigrationPlan :=
  if plan.contains vm then none else some { plan with moves := plan.moves ++ [(vm, host)] }

/-- Plans a move; a machine that moves already keeps its destination. -/
def insert (plan : MigrationPlan) (vm host : Nat) : MigrationPlan :=
  (plan.insert? vm host).getD plan

/-- Plans moves one after the other. -/
def insertAll (plan : MigrationPlan) (moves : List (Nat × Nat)) : MigrationPlan :=
  moves.foldl (fun plan m => plan.insert m.1 m.2) plan

/-- Marks a host to be switched off. -/
def markOff (plan : MigrationPlan) (host : Nat) : MigrationPlan :=
  { plan with switchOff := plan.switchOff.add host }

/-- The number of moves. -/
def size (plan : MigrationPlan) : Nat :=
  plan.moves.length

/-- Whether nothing moves. -/
def isEmpty (plan : MigrationPlan) : Bool :=
  plan.moves.isEmpty

/-- The moves by machine. -/
def toMap (plan : MigrationPlan) : IdMap Nat :=
  plan.moves.foldl (fun m e => m.insert e.1 e.2) ∅

/-- The hosts to which machines go. -/
def targets (plan : MigrationPlan) : IdSet :=
  IdSet.ofList (plan.moves.map Prod.snd)

/-- Whether two plans move the same machines to the same hosts and switch the same hosts off. -/
def same (p q : MigrationPlan) : Bool :=
  decide (p.toMap = q.toMap) && decide (p.switchOff = q.switchOff)

end MigrationPlan

end Datacenter
