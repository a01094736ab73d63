import Datacenter.Scalar

/-!
# Rejected settings

The reasons for which settings are rejected, the text of each, and the checks on single parameters
that several kinds of settings share.
-/

namespace Datacenter

/-- A parameter whose value has to lie within bounds. -/
inductive Parameter where
  /-- The fraction of its share that a migrating machine loses. -/
  | migrationOverhead
  /-- The number of utilization samples kept. -/
  | historySize
  /-- The number of samples required for a measure. -/
  | minHistory
  /-- The utilization above which a host is overloaded. -/
  | overThreshold
  /-- The utilization below which a host is underloaded. -/
  | underThreshold
  /-- The weight of the variability in an adaptive threshold. -/
  | safety
  /-- The number of cores of a host. -/
  | hostCores
  /-- The speed of the cores of a host. -/
  | hostSpeed
deriving DecidableEq, Repr

/-- The name of a parameter in messages. -/
def Parameter.toText : Parameter → String
  | migrationOverhead => "vm_migration_cpu_overhead"
  | historySize => "utilization_history_size"
  | minHistory => "min_history_size_for_measure"
  | overThreshold => "over_utilization_threshold"
  | underThreshold => "under_utilization_threshold"
  | safety => "safety_parameter"
  | hostCores => "host pes"
  | hostSpeed => "host mips_per_pe"

/-- What a name in the settings may stand for. -/
inductive NameKind where
  /-- A discipline of processors. -/
  | scheduler
  /-- A policy that selects machines to migrate. -/
  | selection
  /-- A policy that places machines. -/
  | allocation
  /-- A rule for choosing among target hosts. -/
  | targetFit
  /-- A measure of variability. -/
  | measure
  /-- The threshold of hosts with a short history. -/
  | fallbackThreshold
deriving DecidableEq, Repr

/-- The kind of a name in messages. -/
def NameKind.toText : NameKind → String
  | scheduler => "vm scheduler"
  | selection => "vm selection policy"
  | allocation => "vm allocation policy"
  | targetFit => "target host fit"
  | measure => "utilization measure"
  | fallbackThreshold => "fallback threshold"

/-- Why settings are rejected. -/
inductive SettingsError (α : Type) where
  /-- The file cannot be read. -/
  | unreadable
  /-- The text is no document of the expected form. -/
  | malformed
  /-- The value is not within zero and one. -/
  | notAFraction (parameter : Parameter) (value : α)
  /-- The value is negative or not finite. -/
  | negative (parameter : Parameter) (value : α)
  /-- The value is zero. -/
  | zero (parameter : Parameter)
  /-- The threshold of underload is not below the one of overload. -/
  | thresholdsOverlap (lower upper : α)
  /-- The name stands for nothing of its kind. -/
  | unknownName (kind : NameKind) (name : String)
  /-- The option is unknown, or its value is not of the expected form. -/
  | badOption (option value : String)
deriving DecidableEq, Repr

namespace SettingsError

variable {α : Type} [TextScalar α]

/-- The text of an error; a file that cannot be read and a text that is no document have none of
their own. -/
def message? : SettingsError α → Option String
  | unreadable => none
  | malformed => none
  | notAFraction p v =>
    some (p.toText ++ " must be within [0, 1], got " ++ TextScalar.toText v)
  | negative p v => some (p.toText ++ " must be non-negative, got " ++ TextScalar.toText v)
  | zero p => some (p.toText ++ " must be at least 1")
  | thresholdsOverlap lower upper =>
    some ("under-utilization threshold " ++ TextScalar.toText lower ++
      " must be below over-utilization threshold " ++ TextScalar.toText upper)
  | unknownName kind name => some ("unknown " ++ kind.toText ++ ": " ++ name)
  | badOption option value => some ("bad value for option " ++ option ++ ": " ++ value)

end SettingsError

variable {α : Type} [Scalar α]

/-- Requires a finite value within zero and one. -/
def checkFraction (p : Parameter) (value : α) : Except (SettingsError α) α :=
  if Scalar.isFinite value && 0 ≤ value && value ≤ 1 then .ok value
  else .error (.notAFraction p value)

/-- Requires a finite value that is not negative. -/
def checkNonNegative (p : Parameter) (value : α) : Except (SettingsError α) α :=
  if Scalar.isFinite value && 0 ≤ value then .ok value
  else .error (.negative p value)

omit [Scalar α] in
/-- Requires a size of at least one. -/
def checkPositive (p : Parameter) (size : Nat) : Except (SettingsError α) Nat :=
  if size = 0 then .error (.zero p) else .ok size

/-- Requires that one threshold lies below the other one. -/
def checkThresholds (lower upper : α) : Except (SettingsError α) Unit :=
  if upper ≤ lower then .error (.thresholdsOverlap lower upper) else .ok ()

end Datacenter
