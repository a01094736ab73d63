import Datacenter.Pool.Basic

/-!
# Creating and destroying machines

A machine is created on a host that has everything it needs, and it starts with the request it has
at that moment. Destroying a machine releases all it holds, on the target of an unfinished migration
too; the machine stays registered and can be created again.
-/

namespace Datacenter.Pool

variable {α : Type} [Scalar α]

/-- Creates a machine on a host. Refused if the machine is unknown or placed already, if the host
is unknown, or if the machine does not fit. -/
def create (p : Pool α) (vm host : Nat) : Except Fault (Bool × Pool α) := do
  let some v := p.vms.find? vm | return (false, p)
  if v.isPlaced then return (false, p)
  let some h := p.hosts[host]? | return (false, p)
  if (← h.check v) != .success then return (false, p)
  let some h := h.create? v (v.request p.time) | return (false, p)
  return (true, { p with
    hosts := p.hosts.set host h
    vms := p.vms.insert vm (v.moveTo (some host) p.time)
    pendingOff := p.pendingOff.erase host })

/-- Releases what a machine holds on the target of an unfinished migration, and ends the
migration. -/
def cancelMigration (p : Pool α) (vm : Nat) : Pool α :=
  match p.migrations.find? vm with
  | some target =>
    { p.modifyHost target (·.remove vm) with migrations := p.migrations.erase vm }
  | none => p

/-- Destroys a machine. Refused if it is not placed. -/
def destroy (p : Pool α) (vm : Nat) : Bool × Pool α :=
  match p.location? vm with
  | none => (false, p)
  | some host =>
    let p := (p.modifyHost host (·.remove vm)).cancelMigration vm
    let p := p.modifyVm vm fun v => { v.moveTo none p.time with migration := .settled }
    (true, p.switchOffIfPending host)

end Datacenter.Pool
