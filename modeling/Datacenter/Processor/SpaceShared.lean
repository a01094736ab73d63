import Datacenter.Core
import Datacenter.Processor.Ledger

/-!
# Space sharing

Under space sharing every virtual core holds a whole core of its own, one that is fast enough for
its request. A machine keeps its cores as long as the number of its virtual cores stays the same; a
machine for which there are not enough cores is refused.

Free cores are looked for on behalf of a machine, whose own cores count as free. The largest id
stands for nobody there (`nobody`).
-/

namespace Datacenter.SpaceShared

variable {α : Type} [Scalar α]

open Scalar

/-- Which cores, by position, belong to which machine. -/
abbrev Assignment := IdMap (List Nat)

/-- The id on whose behalf free cores are looked for when it is nobody's. -/
def nobody : Nat := maxCount

/-- The cores of a machine. -/
def assigned (a : Assignment) (id : Nat) : List Nat :=
  (a.find? id).getD []

/-- The cores of all machines except one. -/
def taken (a : Assignment) (except : Nat) : List Nat :=
  a.toList.flatMap fun (id, cores) => if id = except then [] else cores

/-- The positions of the working cores of at least the given capacity that belong to no machine
except one. -/
def freeCores (cores : List (Core α)) (a : Assignment) (except : Nat) (atLeast : α) : List Nat :=
  let taken := taken a except
  (cores.zipIdx.filter fun (core, i) =>
    !taken.contains i && core.isWorking && atLeast ≤ core.capacity).map Prod.snd

/-- The capacities of the cores that belong to nobody. -/
def freeCapacities (cores : List (Core α)) (a : Assignment) : List α :=
  (freeCores cores a nobody 0).filterMap fun i => cores[i]?.map (·.capacity)

/-- Whether there is a fast enough core for each virtual one. -/
def isSuitable (cores : List (Core α)) (a : Assignment) (vm : Vm α) : Bool :=
  vm.vcpus ≤ (freeCores cores a vm.id vm.speed).length

/-- The assignment that admits a request of a machine, unless there are not enough cores for it. -/
def admit? (cores : List (Core α)) (a : Assignment) (id : Nat) (requested : List α) :
    Option Assignment :=
  if (a.find? id).map List.length = some requested.length then some a
  else
    let free := freeCores cores a id (largest requested)
    if free.length < requested.length then none
    else some (a.insert id (free.take requested.length))

/-- Serves one virtual core on the core at a position: the amount given, and the cores after it. -/
def serveCore (factor mips : α) (i : Nat) (cores : List (Core α)) : α × List (Core α) :=
  match cores[i]? with
  | some core =>
    let (given, core) := core.reserve.allocate (clamp mips 0 core.capacity * factor)
    (given, cores.set i core)
  | none => (0, cores)

/-- Serves virtual cores on their cores: the amounts given, and the cores after it. -/
def serve (factor : α) : List (α × Nat) → List (Core α) → List α × List (Core α)
  | [], cores => ([], cores)
  | (mips, i) :: rest, cores =>
    let (given, cores) := serveCore factor mips i cores
    let (others, cores) := serve factor rest cores
    (given :: others, cores)

/-- Serves the requests of machines in order: the cores after it and the allocations added to those
given. -/
def serveAll (ledger : Ledger α) (a : Assignment) :
    List (Nat × Request α) → IdMap (List α) → List (Core α) → IdMap (List α) × List (Core α)
  | [], allocations, cores => (allocations, cores)
  | (id, request) :: rest, allocations, cores =>
    let (given, cores) := serve (ledger.factor id) (request.share.zip (assigned a id)) cores
    serveAll ledger a rest (allocations.insert id given) cores

/-- The allocations of all machines and the cores that carry them. -/
def share (cores : List (Core α)) (ledger : Ledger α) (a : Assignment) :
    IdMap (List α) × List (Core α) :=
  serveAll ledger a ledger.requests.toList ∅ (cores.map (·.reset))

end Datacenter.SpaceShared
