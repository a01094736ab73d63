import Datacenter.Consolidation.Evacuation
import Datacenter.Consolidation.Relief

/-!
# Rounds of consolidation

`Consolidation.plan` plans one round of migrations, the optimized allocation that a policy of the
migrating kind proposes. First the overloaded hosts are relieved, then underloaded ones are
evacuated.

* Hosts that are overloaded at the start are never targets. Hosts that are off can be targets of a
  relief but not of an evacuation.
* Hosts that take machines are not evacuated in the same round, nor are hosts from or to which a
  migration is under way.

The plan does not change the pool. It may only move the machines named as eligible.

The selector has to choose among the machines it is offered. What a round comes to with a selector
of any kind is told by the steps of its relief (`Consolidation.reliefStep?`), and `planFor` goes on
from where they end.
-/

namespace Datacenter.Consolidation

variable {α σ : Type} [Scalar α]

/-- The estimates of all hosts as they are. -/
def estimatesOf (rule : Rule α) (p : Pool α) : Except Fault (List (Estimate α)) :=
  p.hosts.mapM fun h => do Estimate.ofHost h (← rule.upper.of h)

/-- The hosts that are on and overloaded, by id. -/
def overloaded (estimates : List (Estimate α)) : List Nat :=
  (estimates.filter fun e => e.isActive && e.isOverloaded).map (·.id)

/-- The hosts that are on, have no migration under way and are not excluded, by id. -/
def openHosts (estimates : List (Estimate α)) (excluded : IdSet) : List Nat :=
  (estimates.filter fun e => e.isActive && !e.hasMigrations && !excluded.contains e.id).map (·.id)

/-- The hosts that are off, by id. -/
def inactive (estimates : List (Estimate α)) : List Nat :=
  (estimates.filter fun e => !e.isActive).map (·.id)

/-- The plan of a round once machines of the overloaded hosts `sources` have been selected to leave:
they are settled, and then underloaded hosts are evacuated. -/
def planFor (find : Search (HostRank α) (Estimate α)) (fit : TargetFit) (lower : α) (p : Pool α)
    (eligible : IdSet) (sources : List Nat) (selected : List (Vm α))
    (estimates : List (Estimate α)) : MigrationPlan :=
  let (moves, estimates) := settleSelected find fit p.time (.ofList sources)
    (heaviestFirst p.time selected) estimates
  evacuate find fit lower p eligible (.ofList (sources ++ inactive estimates))
    (openHosts estimates (.ofList (sources ++ moves.map Prod.snd))) estimates
    (MigrationPlan.empty.insertAll moves)

/-- Plans a round of migrations of eligible machines, where hosts are searched in the given way: the
plan, and the state of the selector for the next round. The selector has to keep to the machines it
is offered. -/
def planBy (find : Search (HostRank α) (Estimate α)) (rule : Rule α) (choose : Selector σ α) (s : σ)
    (p : Pool α) (eligible : List Nat) : Except Fault (MigrationPlan × σ) := do
  let eligible := IdSet.ofList eligible
  let estimates ← estimatesOf rule p
  let sources := overloaded estimates
  let (selected, estimates, s) := select choose p eligible sources estimates s
  return (planFor find rule.fit rule.lower p eligible sources selected estimates, s)

/-- Plans a round of migrations of eligible machines. -/
def plan (rule : Rule α) (choose : Selector σ α) (s : σ) (p : Pool α) (eligible : List Nat) :
    Except Fault (MigrationPlan × σ) :=
  planBy rule.search.findMax rule choose s p eligible

end Datacenter.Consolidation
