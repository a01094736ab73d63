import Datacenter.Pool.Basic

/-!
# Vertical scaling

The virtual cores, the memory or the bandwidth of a placed machine can be changed in place. To grow,
the host has to have the additional amount; for cores, the processor confirms the change before it
is made. To shrink, nothing is required, and one unit always remains.
-/

namespace Datacenter

/-- What can be changed in place. -/
inductive Resource where
  /-- The virtual cores. -/
  | cores
  /-- The memory. -/
  | ram
  /-- The bandwidth. -/
  | bandwidth
deriving DecidableEq, Repr

namespace Pool

variable {α : Type} [Scalar α]

/-- The number of cores after a change, unless the host cannot give that many more. -/
def scaledCores? (h : Host α) (vm : Vm α) (delta : Int) : Option Nat :=
  let change := min delta.natAbs maxCount
  if 0 < delta then
    let count := min (vm.vcpus + change) maxCount
    if h.processor.workingCount < count || !h.processor.isSuitable { vm with vcpus := change } then
      none
    else some count
  else some (max (vm.vcpus - change) 1)

/-- A quantity after a change, unless not enough of it is available. -/
def scaledQuantity? (available : Except Fault Nat) (quantity : Nat) (delta : Int) :
    Except Fault (Option Nat) := do
  if 0 < delta then
    if (← available) < delta.natAbs then return none
    return some (quantity + delta.natAbs)
  return some (max (quantity - delta.natAbs) 1)

/-- Changes the number of cores. If the processor refuses the new request, the machine keeps its
size and its present request is registered again. -/
def scaleCores (p : Pool α) (vm : Vm α) (host : Nat) (h : Host α) (delta : Int) : Bool × Pool α :=
  match scaledCores? h vm delta with
  | none => (false, p)
  | some count =>
    let scaled := { vm with vcpus := count }
    match h.admit? scaled (scaled.request p.time) with
    | some h =>
      (true, { p with hosts := p.hosts.set host h, vms := p.vms.insert vm.id scaled })
    | none => (false, { p with hosts := p.hosts.set host (h.update vm (vm.request p.time)) })

/-- Gives a machine a new size, and adapts what its host sets aside for it. -/
def resize (p : Pool α) (host : Nat) (h : Host α) (vm : Vm α) : Pool α :=
  { p with hosts := p.hosts.set host (h.reprovision vm), vms := p.vms.insert vm.id vm }

/-- Changes a resource of a machine by an amount. Refused if the machine is unknown, not placed or
migrating, or if its host cannot give what is asked for. -/
def scale (p : Pool α) (vm : Nat) (resource : Resource) (delta : Int) :
    Except Fault (Bool × Pool α) := do
  let some v := p.vms.find? vm | return (false, p)
  let some host := v.host | return (false, p)
  if v.isMigrating then return (false, p)
  if delta = 0 then return (true, p)
  let h ← elementAt p.hosts host
  match resource with
  | .cores => return p.scaleCores v host h delta
  | .ram =>
    let some ram ← scaledQuantity? h.availableRam v.ram delta | return (false, p)
    return (true, p.resize host h { v with ram := ram })
  | .bandwidth =>
    let some bandwidth ← scaledQuantity? h.availableBandwidth v.bandwidth delta
      | return (false, p)
    return (true, p.resize host h { v with bandwidth := bandwidth })

end Pool

end Datacenter
