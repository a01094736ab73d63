import Datacenter.Settings.Error
import Datacenter.UtilizationHistory

/-!
# Settings

The settings of a datacenter, its allocation configuration: the parameters of migration, host search
and thresholds, the designations of the policies, and the hosts to set up. `Settings.validate`
checks that all numeric parameters are within their domains and reports the first one that is not.
-/

namespace Datacenter

/-- A host to set up, or a number of equal ones. -/
structure HostSpec (α : Type) where
  /-- The name of a single host. -/
  name : Option String
  /-- The name of each of several hosts, before its number. -/
  namePrefix : Option String
  /-- The number of cores. -/
  cores : Nat
  /-- The speed of each core. -/
  speed : α
  /-- The memory. -/
  ram : Nat
  /-- The bandwidth. -/
  bandwidth : Nat
  /-- The storage. -/
  storage : Nat
  /-- The designation of the scheduler. -/
  scheduler : Option String
  /-- The number of hosts. -/
  count : Option Nat
deriving DecidableEq, Repr

/-- The settings of a datacenter. -/
structure Settings (α : Type) where
  /-- The fraction of its share that a migrating machine loses. -/
  migrationOverhead : α
  /-- Whether hosts may be searched in parallel. -/
  parallelSearch : Bool
  /-- The least number of hosts that are searched in parallel. -/
  parallelThreshold : Nat
  /-- The number of utilization samples kept for each host and machine. -/
  historySize : Nat
  /-- The number of samples required for a measure of variability. -/
  minHistory : Nat
  /-- The utilization above which a host is overloaded. -/
  overThreshold : α
  /-- The utilization below which a host is underloaded. -/
  underThreshold : α
  /-- The weight of the variability in an adaptive threshold. -/
  safety : α
  /-- The designation of the selection policy. -/
  selectionPolicy : String
  /-- The designation of the allocation policy. -/
  allocationPolicy : String
  /-- The hosts. -/
  hosts : List (HostSpec α)
deriving DecidableEq, Repr

namespace Settings

variable {α : Type} [Scalar α]

/-- The settings where nothing is said. -/
def default : Settings α where
  migrationOverhead := 0.1
  parallelSearch := false
  parallelThreshold := 1000
  historySize := UtilizationHistory.defaultSize
  minHistory := 12
  overThreshold := 0.9
  underThreshold := 0.35
  safety := 2.5
  selectionPolicy := "MinimumUtilization"
  allocationPolicy := "Simple"
  hosts := []

/-- Checks the parameters of a host. -/
def validateHost (h : HostSpec α) : Except (SettingsError α) Unit := do
  let _ ← checkPositive .hostCores h.cores
  let _ ← checkNonNegative .hostSpeed h.speed

/-- Checks that all numeric parameters are within their domains. -/
def validate (s : Settings α) : Except (SettingsError α) Unit := do
  let _ ← checkFraction .migrationOverhead s.migrationOverhead
  let _ ← checkPositive .historySize s.historySize
  let _ ← checkPositive .minHistory s.minHistory
  let upper ← checkFraction .overThreshold s.overThreshold
  let lower ← checkFraction .underThreshold s.underThreshold
  checkThresholds lower upper
  let _ ← checkNonNegative .safety s.safety
  s.hosts.forM validateHost

end Settings

end Datacenter
