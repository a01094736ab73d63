import Datacenter.Host

/-!
# Pools

The resource pool of a datacenter holds all its hosts and all its virtual machines. Hosts are known
by their position, machines by their id. A machine knows the host on which it resides and a host the
ids of its machines, so a move is a change of these entries on both sides.

The operations are functions from a pool to an answer and a pool. An answer `false` is a refusal;
operations that may ask for something that does not exist answer in `Except Fault`.

This module has the registry: adding hosts and machines, finding them again, and switching hosts on
and off. The other modules of this folder create, migrate and resize machines and let time pass.
-/

namespace Datacenter

/-- The hosts and the virtual machines of a datacenter. -/
structure Pool (α : Type) where
  /-- The hosts, by id. -/
  hosts : List (Host α)
  /-- The registered machines. -/
  vms : IdMap (Vm α)
  /-- The machines that are migrating and the hosts they go to. -/
  migrations : IdMap Nat
  /-- The hosts to switch off once they are empty. -/
  pendingOff : IdSet
  /-- The time. -/
  time : α
  /-- The number of utilization samples kept for each host and machine. -/
  historySize : Nat

namespace Pool

variable {α : Type} [Scalar α]

/-- The pool without hosts and machines. -/
def new (time : α) (historySize : Nat) : Pool α where
  hosts := []
  vms := ∅
  migrations := ∅
  pendingOff := ∅
  time := time
  historySize := historySize

/-! ## Time -/

/-- Sets the clock. -/
def setTime (p : Pool α) (time : α) : Pool α :=
  { p with time := time }

/-- Moves the clock forward. -/
def advance (p : Pool α) (duration : α) : Pool α :=
  { p with time := p.time + duration }

/-! ## Registry -/

/-- Adds a host: its id and the pool with it. -/
def addHost (p : Pool α) (h : Host α) : Except Fault (Nat × Pool α) := do
  let history ← UtilizationHistory.create p.historySize
  let id := p.hosts.length
  return (id, { p with hosts := p.hosts ++ [{ h with id := id }.withHistory history] })

/-- Registers a machine that waits for a place, unless its id is taken. -/
def addVm (p : Pool α) (vm : Vm α) : Except Fault (Bool × Pool α) := do
  if p.vms.contains vm.id then return (false, p)
  let history ← UtilizationHistory.create p.historySize
  return (true, { p with vms := p.vms.insert vm.id (vm.withHistory history) })

/-- The host with an id. -/
def host (p : Pool α) (id : Nat) : Except Fault (Host α) :=
  match p.hosts[id]? with
  | some h => .ok h
  | none => .error (.unknownHost id)

/-- The machine with an id. -/
def vm (p : Pool α) (id : Nat) : Except Fault (Vm α) :=
  match p.vms.find? id with
  | some vm => .ok vm
  | none => .error (.unknownVm id)

/-- The first host with a name. -/
def hostNamed? (p : Pool α) (name : String) : Option Nat :=
  (p.hosts.find? (fun h => h.name == name)).map (·.id)

/-- The host on which a machine resides. -/
def location? (p : Pool α) (vm : Nat) : Option Nat :=
  (p.vms.find? vm).bind (·.host)

/-- The host to which a machine is migrating. -/
def target? (p : Pool α) (vm : Nat) : Option Nat :=
  p.migrations.find? vm

/-- The number of hosts that are switched on. -/
def activeCount (p : Pool α) : Nat :=
  (p.hosts.filter (·.isActive)).length

/-- The machines that reside on a host, by id. -/
def residentsOf (p : Pool α) (h : Host α) : List (Vm α) :=
  h.residents.keys.filterMap p.vms.find?

/-- The machines that reside on a host and take no part in a migration. -/
def migratable (p : Pool α) (h : Host α) : List (Vm α) :=
  (p.residentsOf h).filter fun vm => !h.outgoing.contains vm.id && !vm.isMigrating

/-! ## Hosts -/

/-- Applies a change to one host. -/
def modifyHost (p : Pool α) (id : Nat) (f : Host α → Host α) : Pool α :=
  { p with hosts := p.hosts.modify id f }

/-- Applies a change to one machine. -/
def modifyVm (p : Pool α) (id : Nat) (f : Vm α → Vm α) : Pool α :=
  { p with vms := p.vms.modify id f }

/-- Switches a host on or off. A host that is not empty cannot be switched off. -/
def setHostActive (p : Pool α) (id : Nat) (on : Bool) : Except Fault (Bool × Pool α) := do
  let h ← elementAt p.hosts id
  if !on && !h.isEmpty then return (false, p)
  let p := p.modifyHost id fun h => { h with isActive := on }
  return (true, if on then { p with pendingOff := p.pendingOff.erase id } else p)

/-- Puts a core of a host out of order. -/
def failCore (p : Pool α) (id core : Nat) : Except Fault (Pool α) := do
  let h ← elementAt p.hosts id
  let h ← h.failCore core
  return p.modifyHost id fun _ => h

/-- Whether a machine can be created on a host. -/
def check (p : Pool α) (vm host : Nat) : Except Fault Verdict := do
  let h ← p.host host
  let vm ← p.vm vm
  h.check vm

/-- Switches a host off if it waits for that and is empty. -/
def switchOffIfPending (p : Pool α) (id : Nat) : Pool α :=
  match p.hosts[id]? with
  | some h =>
    if p.pendingOff.contains id && h.isEmpty then
      { p.modifyHost id fun h => { h with isActive := false } with
        pendingOff := p.pendingOff.erase id }
    else p
  | none => p

end Pool

end Datacenter
