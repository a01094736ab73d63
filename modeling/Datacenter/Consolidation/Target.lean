import Datacenter.Consolidation.Estimate
import Datacenter.HostSearch
import Datacenter.TargetFit
import Datacenter.Threshold

/-!
# Targets of planned moves

`Rule` says what a consolidation aims at: when a host is overloaded or underloaded, and which of
several targets is preferred. A target must be able to take the machine without being overloaded;
hosts that are switched on come first. Settling a machine on its target changes the estimate of the
target, so the next machine sees what is left.

Machines are settled heaviest first, since large ones are the hardest to place.
-/

namespace Datacenter.Consolidation

/-- What a consolidation aims at. -/
structure Rule (α : Type) where
  /-- How hosts are searched. -/
  search : HostSearch
  /-- Which of several targets is preferred. -/
  fit : TargetFit
  /-- When a host is overloaded. -/
  upper : UpperThreshold α
  /-- The utilization below which a host is underloaded. -/
  lower : α
deriving DecidableEq, Repr

namespace Rule

variable {α : Type} [Scalar α]

/-- A rule, whose threshold of underload has to be a fraction. -/
def make (search : HostSearch) (fit : TargetFit) (upper : UpperThreshold α) (lower : α) :
    Except (SettingsError α) (Rule α) := do
  let lower ← checkFraction .underThreshold lower
  return { search := search, fit := fit, upper := upper, lower := lower }

/-- Whether a host is on and overloaded. -/
def isOverloaded (rule : Rule α) (h : Host α) : Except Fault Bool := do
  if !h.isActive then return false
  return (← rule.upper.of h) < h.utilization

/-- Whether a host is on and underloaded. -/
def isUnderloaded (rule : Rule α) (h : Host α) : Bool :=
  h.isActive && h.utilization < rule.lower

end Rule

variable {α : Type} [Scalar α]

/-- The rank of a host as the target of a machine with a load; none if it cannot be one. -/
def rank? (fit : TargetFit) (excluded : IdSet) (allowInactive : Bool) (vm : Vm α) (load : α)
    (e : Estimate α) : Option (HostRank α × Nat) :=
  if excluded.contains e.id || (!allowInactive && !e.isActive) || !e.canAccept vm load then none
  else some ({ isActive := e.isActive, score := fit.score e.load e.free }, e.id)

/-- The target of a machine with a load, among hosts that are not excluded. -/
def findTarget (find : Search (HostRank α) (Estimate α)) (fit : TargetFit) (excluded : IdSet)
    (allowInactive : Bool) (estimates : List (Estimate α)) (vm : Vm α) (load : α) : Option Nat :=
  find estimates (rank? fit excluded allowInactive vm load)

/-- Settles a machine on its target: the target, and the estimates after it. -/
def settle? (find : Search (HostRank α) (Estimate α)) (fit : TargetFit) (time : α)
    (excluded : IdSet) (allowInactive : Bool) (estimates : List (Estimate α)) (vm : Vm α) :
    Option (Nat × List (Estimate α)) :=
  let load := vm.loadAt time
  (findTarget find fit excluded allowInactive estimates vm load).map fun target =>
    (target, estimates.modify target (·.add vm load))

/-- Whether a machine comes before another one: the one with the higher load, and of equal ones the
one with the lower id. -/
def isHeavier (time : α) (a b : Vm α) : Bool :=
  ((compare (b.loadAt time) (a.loadAt time)).then (compare a.id b.id)).isLE

/-- Machines in the order in which they are settled. -/
def heaviestFirst (time : α) (vms : List (Vm α)) : List (Vm α) :=
  stableSort (isHeavier time) vms

end Datacenter.Consolidation
