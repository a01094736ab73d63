import Datacenter.Regression
import Datacenter.Selection.Random
import Datacenter.Vm

/-!
# Selection policies

A selection policy chooses, among the machines that may leave an overloaded host, the one to
migrate. A choice may change the policy, as drawing a random number does, so a choice answers with
the policy to use from then on.

How random numbers become a choice is an argument of `SelectionPolicy.selectBy`;
`SelectionPolicy.select` is the instance that draws with `Generator.choose`.
-/

namespace Datacenter

/-- A way to choose among candidates at a time, with a state of type `σ`. The answer is to be the id
of one of the candidates, or none if there is no machine to migrate. -/
abbrev Selector (σ α : Type) := σ → List (Vm α) → α → Option Nat × σ

/-- A policy for choosing a machine to migrate. -/
inductive SelectionPolicy where
  /-- The machine with the lowest utilization. -/
  | minimumUtilization
  /-- The machine with the least memory, which is the fastest to move. -/
  | minimumMigrationTime
  /-- The machine whose utilization is explained best by that of the others; the fallback decides if
  that cannot be computed. -/
  | maximumCorrelation (fallback : SelectionPolicy)
  /-- Any machine. -/
  | random (generator : Generator)
deriving DecidableEq, Repr

namespace SelectionPolicy

variable {α : Type} [Scalar α]

/-- The first machine with the lowest utilization. A utilization that is no value is passed over. -/
def leastUtilized (candidates : List (Vm α)) (time : α) : Option (Vm α) :=
  candidates.foldl (fun best vm =>
    match best with
    | none => if vm.utilization time == vm.utilization time then some vm else none
    | some b => if vm.utilization time < b.utilization time then some vm else some b) none

omit [Scalar α] in
/-- The first machine with the least memory. -/
def leastRam (candidates : List (Vm α)) : Option (Vm α) :=
  candidates.foldl (fun best vm =>
    match best with
    | none => some vm
    | some b => if vm.ram < b.ram then some vm else some b) none

/-- The first machine with the highest coefficient, or the first one of all if no coefficient is
above zero. -/
def mostCorrelated : List (Vm α) → List α → Option (Vm α)
  | [], _ => none
  | first :: rest, coefficients =>
    some (((first :: rest).zip coefficients).foldl
      (fun (best, highest) (vm, c) => if highest < c then (vm, c) else (best, highest))
      (first, 0)).1

/-- Chooses a machine among candidates, where `choose` draws one of them; the answer is its id, and
the policy for the next choice. -/
def selectBy (choose : Generator → List (Vm α) → Option (Vm α) × Generator) :
    SelectionPolicy → List (Vm α) → α → Option Nat × SelectionPolicy
  | minimumUtilization, candidates, time =>
    ((leastUtilized candidates time).map (·.id), minimumUtilization)
  | minimumMigrationTime, candidates, _ =>
    ((leastRam candidates).map (·.id), minimumMigrationTime)
  | maximumCorrelation fallback, candidates, time =>
    if candidates.isEmpty then (none, maximumCorrelation fallback)
    else
      match Regression.coefficients (candidates.map (·.history.values)) with
      | some coefficients =>
        ((mostCorrelated candidates coefficients).map (·.id), maximumCorrelation fallback)
      | none =>
        let (chosen, fallback) := fallback.selectBy choose candidates time
        (chosen, maximumCorrelation fallback)
  | random generator, candidates, _ =>
    let (chosen, generator) := choose generator candidates
    (chosen.map (·.id), random generator)

/-- Chooses a machine among candidates; the answer is its id, and the policy for the next choice. -/
def select (policy : SelectionPolicy) (candidates : List (Vm α)) (time : α) :
    Option Nat × SelectionPolicy :=
  policy.selectBy Generator.choose candidates time

end SelectionPolicy

end Datacenter
