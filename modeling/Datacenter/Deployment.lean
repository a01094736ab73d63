import Datacenter.Pool.Basic
import Datacenter.Settings.Basic
import Datacenter.Settings.Scheduler

/-!
# Deployment

Setting up the pool that settings describe. Equal hosts are numbered from one on; a host without a
name is called after its position in the pool.
-/

namespace Datacenter

/-- Why a pool could not be set up. -/
inductive DeploymentError (α : Type) where
  /-- The settings are rejected. -/
  | settings (error : SettingsError α)
  /-- The settings ask for what there is no room for. -/
  | fault (fault : Fault)
deriving DecidableEq, Repr

namespace HostSpec

variable {α : Type} [TextScalar α]

/-- The number of hosts to set up. -/
def copies (spec : HostSpec α) : Nat :=
  spec.count.getD 1

/-- The name of the copy with an index, at a position in the pool. -/
def nameOf (spec : HostSpec α) (index position : Nat) : String :=
  if spec.copies = 1 then spec.name.getD ("host" ++ position.repr)
  else spec.namePrefix.getD "host" ++ (index + 1).repr

/-- A host with a name. -/
def host (spec : HostSpec α) (name : String) (overhead : α) :
    Except (SettingsError α) (Host α) := do
  let scheduler ← Scheduler.ofText (spec.scheduler.getD "TimeShared") overhead
  let cores := List.replicate spec.cores (Core.new spec.speed)
  return .new name (scheduler.processor cores) spec.ram spec.bandwidth spec.storage

end HostSpec

namespace Pool

variable {α : Type} [TextScalar α]

/-- Adds the copy of a host with an index. -/
def addCopy (spec : HostSpec α) (overhead : α) (p : Pool α) (index : Nat) :
    Except (DeploymentError α) (Pool α) := do
  let host ← (spec.host (spec.nameOf index p.hosts.length) overhead).mapError .settings
  let (_, p) ← (p.addHost host).mapError .fault
  return p

/-- Adds all copies of a host. -/
def addCopies (overhead : α) (p : Pool α) (spec : HostSpec α) :
    Except (DeploymentError α) (Pool α) :=
  (List.range spec.copies).foldlM (addCopy spec overhead) p

/-- The pool that settings describe, which have to be valid. -/
def ofSettings (time : α) (settings : Settings α) : Except (DeploymentError α) (Pool α) := do
  settings.validate.mapError .settings
  settings.hosts.foldlM (addCopies settings.migrationOverhead) (.new time settings.historySize)

end Pool

end Datacenter
