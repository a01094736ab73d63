import Datacenter.Consolidation.Round
import Datacenter.Pool.Lifecycle

/-!
# Allocation policies

An allocation policy finds hosts for machines that wait for a place, and may plan migrations that
improve the placement. All policies prefer hosts that are switched on. Only the policy with a rule
for consolidation plans migrations; the choices it makes among machines may depend on the ones it
made before, so planning answers with the policy to use from then on.
-/

namespace Datacenter

/-- A way to place machines. -/
inductive AllocationPolicy (α : Type) where
  /-- The host with the most free cores. -/
  | simple (search : HostSearch)
  /-- The first host that fits. -/
  | firstFit (search : HostSearch)
  /-- The host with the fewest free cores. -/
  | bestFit (search : HostSearch)
  /-- The host that the fit of a rule prefers; migrations follow the rule. -/
  | consolidating (rule : Consolidation.Rule α) (selection : SelectionPolicy)
deriving DecidableEq

namespace AllocationPolicy

variable {α : Type} [Scalar α]

/-- The key of a host for a machine; none if the machine does not fit. -/
def keyIfSuitable {κ : Type} (key : Host α → κ) (vm : Vm α) (h : Host α) :
    Except Fault (Option κ) := do
  if ← h.isSuitable vm then return some (key h)
  return none

omit [Scalar α] in
/-- The rank of a host by a score. -/
def rankBy {κ : Type} (score : Host α → κ) (h : Host α) : HostRank κ :=
  { isActive := h.isActive, score := score h }

omit [Scalar α] in
/-- How the policy searches hosts. -/
def search : AllocationPolicy α → HostSearch
  | simple search => search
  | firstFit search => search
  | bestFit search => search
  | consolidating rule _ => rule.search

/-- The host for a machine, if it fits on any, where hosts are searched in the given way. -/
def findHostBy (find : ∀ {κ β : Type} [Ord κ], Search κ β) (policy : AllocationPolicy α)
    (p : Pool α) (vm : Vm α) : Except Fault (Option Nat) :=
  match policy with
  | simple _ =>
    Search.findHost find p.hosts (keyIfSuitable (rankBy (·.processor.freeCount)) vm)
  | firstFit _ =>
    Search.findHost find p.hosts (keyIfSuitable (·.isActive) vm)
  | bestFit _ =>
    Search.findHost find p.hosts (keyIfSuitable (rankBy fun h => Fewest.mk h.processor.freeCount) vm)
  | consolidating rule _ =>
    Search.findHost find p.hosts
      (keyIfSuitable (rankBy fun h => rule.fit.score h.load h.processor.freeCount) vm)

/-- The host for a machine, if it fits on any. -/
def findHost (policy : AllocationPolicy α) (p : Pool α) (vm : Vm α) : Except Fault (Option Nat) :=
  policy.findHostBy policy.search.findMax p vm

/-- Creates a machine on the host found for it. Refused if there is none. -/
def place (policy : AllocationPolicy α) (p : Pool α) (vm : Nat) : Except Fault (Bool × Pool α) := do
  match ← policy.findHost p (← p.vm vm) with
  | some host => p.create vm host
  | none => return (false, p)

/-- Plans migrations of eligible machines, where hosts are searched in the given way: the plan, and
the policy for the next one. -/
def planBy (find : ∀ {κ β : Type} [Ord κ], Search κ β) (policy : AllocationPolicy α) (p : Pool α)
    (eligible : List Nat) : Except Fault (MigrationPlan × AllocationPolicy α) :=
  match policy with
  | consolidating rule selection => do
    let (plan, selection) ←
      Consolidation.planBy find rule SelectionPolicy.select selection p eligible
    return (plan, consolidating rule selection)
  | policy => .ok (.empty, policy)

/-- Plans migrations of eligible machines: the plan, and the policy for the next one. -/
def plan (policy : AllocationPolicy α) (p : Pool α) (eligible : List Nat) :
    Except Fault (MigrationPlan × AllocationPolicy α) :=
  policy.planBy policy.search.findMax p eligible

/-- Whether a host is overloaded; no host is if the policy has no rule. -/
def isOverloaded (policy : AllocationPolicy α) (h : Host α) : Except Fault Bool :=
  match policy with
  | consolidating rule _ => rule.isOverloaded h
  | _ => .ok false

/-- Whether a host is underloaded; no host is if the policy has no rule. -/
def isUnderloaded (policy : AllocationPolicy α) (h : Host α) : Bool :=
  match policy with
  | consolidating rule _ => rule.isUnderloaded h
  | _ => false

end AllocationPolicy

end Datacenter
