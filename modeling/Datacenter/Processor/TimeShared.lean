import Datacenter.Core
import Datacenter.Processor.Ledger
import Datacenter.Sharing

/-!
# Time sharing

Under time sharing all virtual cores share all working cores. A virtual core asks for at most the
speed of the fastest core. While all requests fit together, everybody gets what they ask for;
otherwise the capacity is divided by `shareCapacity`. A migrating machine gets only a fraction of
its share.

The shares are then poured onto the cores in order, machine by machine and core by core, so a share
may span neighbouring cores. Amounts of at most `sliver` are not worth another core: a core with no
more than that left is passed over, and a share lacking no more than that counts as served.
-/

namespace Datacenter.TimeShared

variable {α : Type} [Scalar α]

open Scalar

/-- The amount below which capacity is not worth dividing. -/
def sliver : α := 1e-9

/-- Takes from one core until it is used up or nothing is needed: what is still needed, and the
core after it. In floating point, taking all that is left may leave a rounding error behind, and
taking that error exactly nothing; so three rounds are all there can be. -/
def fill : Nat → α → Core α → α × Core α
  | 0, needed, core => (needed, core)
  | rounds + 1, needed, core =>
    if sliver < needed && sliver < core.available then
      let (taken, core) := core.allocate needed
      fill rounds (needed - taken) core
    else (needed, core)

/-- Takes from the cores in order: what is still needed, and the cores after it. -/
def pour (needed : α) : List (Core α) → α × List (Core α)
  | [] => (needed, [])
  | core :: cores =>
    let (needed, core) := fill 3 needed core
    let (needed, cores) := pour needed cores
    (needed, core :: cores)

/-- Pours amounts onto the cores, one after the other: what each of them received, with the id of
its owner, and the cores after it. -/
def layOut : List (Nat × α) → List (Core α) → List (Nat × α) × List (Core α)
  | [], cores => ([], cores)
  | (id, wanted) :: rest, cores =>
    let (missing, cores) := pour wanted cores
    let received := if sliver < missing then wanted - missing else wanted
    let (others, cores) := layOut rest cores
    ((id, received) :: others, cores)

/-- The total capacity of the working cores. -/
def capacity (cores : List (Core α)) : α :=
  sum ((Core.working cores).map (·.capacity))

/-- The capacity of the fastest working core. -/
def fastest (cores : List (Core α)) : α :=
  largest ((Core.working cores).map (·.capacity))

/-- The owners and the demands of all virtual cores, by the owner's id. -/
def demands (cores : List (Core α)) (ledger : Ledger α) : List (Nat × α) :=
  ledger.requests.toList.flatMap fun (id, r) =>
    r.share.map fun mips => (id, clamp mips 0 (fastest cores))

/-- The owners of all virtual cores and the amounts they are to receive. -/
def entitlements (cores : List (Core α)) (ledger : Ledger α) : List (Nat × α) :=
  let demands := demands cores ledger
  let shares := shareCapacity (demands.map Prod.snd) (capacity cores)
  List.zipWith (fun d share => (d.1, share * ledger.factor d.1)) demands shares

/-- The allocations of all machines and the cores that carry them. -/
def share (cores : List (Core α)) (ledger : Ledger α) : IdMap (List α) × List (Core α) :=
  let (received, cores) := layOut (entitlements cores ledger) (cores.map (·.reset))
  (ledger.requests.map fun id _ => (received.filter (·.1 == id)).map Prod.snd, cores)

/-- Whether the cores can serve the peak request of a machine out of what is left. -/
def isSuitable (cores : List (Core α)) (vm : Vm α) : Bool :=
  vm.vcpus ≤ (Core.working cores).length
    && vm.speed ≤ fastest cores
    && vm.peak ≤ sum (cores.map (·.available)) + sliver

/-- Whether a machine is admitted: there has to be a working core for each virtual one. -/
def admits (cores : List (Core α)) (vm : Vm α) (requested : List α) : Bool :=
  requested.length ≤ (Core.working cores).length && vm.vcpus ≤ (Core.working cores).length

end Datacenter.TimeShared
