import Datacenter.Pool.Basic

/-!
# Processing

At every interval the requests of all placed machines are brought up to date with their loads, on
both hosts if they are migrating, and then the utilization of every placed machine and of every host
is recorded. A processor that refuses a request keeps the one it has.
-/

namespace Datacenter.Pool

variable {α : Type} [Scalar α]

/-- The hosts that a machine runs on: the one it resides on, and the target of its migration. -/
def hostsOf (p : Pool α) (vm : Vm α) : List Nat :=
  match vm.host with
  | some host => host :: (p.migrations.find? vm.id).toList
  | none => []

/-- Brings the request of a machine up to date on all hosts it runs on. -/
def refresh (p : Pool α) (vm : Vm α) : Pool α :=
  (p.hostsOf vm).foldl (fun p host => p.modifyHost host (·.update vm (vm.request p.time))) p

/-- Brings the requests of machines up to date, one after the other. -/
def refreshAll (p : Pool α) (vms : List (Vm α)) : Pool α :=
  vms.foldl refresh p

/-- Records the current utilization of a machine if it is placed. -/
def recordVm (time : α) (vm : Vm α) : Vm α :=
  if vm.isPlaced then vm.recordUtilization time (vm.utilization time) else vm

/-- Records the utilization of all placed machines and all hosts. -/
def recordAll (p : Pool α) : Pool α :=
  { p with
    vms := p.vms.map fun _ vm => recordVm p.time vm
    hosts := p.hosts.map (·.recordUtilization p.time) }

/-- Brings all requests up to date and records all utilizations. -/
def updateProcessing (p : Pool α) : Pool α :=
  (p.refreshAll p.vms.values).recordAll

end Datacenter.Pool
