import Datacenter.Host
import Datacenter.Settings.Error
import Datacenter.Statistics

/-!
# Thresholds of overload

A host is overloaded when its utilization exceeds an upper threshold. The threshold is either fixed
or adapted to the host's recent utilization: the more the utilization varies, the lower it is. A
host with too short a history falls back on another threshold.
-/

namespace Datacenter

/-- How the variability of a utilization is measured. -/
inductive Measure where
  /-- By the median absolute deviation. -/
  | mad
  /-- By the interquartile range. -/
  | iqr
deriving DecidableEq, Repr

namespace Measure

variable {α : Type} [Scalar α]

/-- The name in settings. -/
def ofText? : String → Option Measure
  | "Mad" => some mad
  | "Iqr" => some iqr
  | _ => none

/-- The variability of some data. -/
def of (m : Measure) (data : List α) : Except Fault α :=
  match m with
  | mad => .ok (Statistics.mad data)
  | iqr => Statistics.iqr data

end Measure

/-- The utilization above which a host is overloaded. These are the two kinds that settings can
designate, with fallbacks nested to any depth. The type is closed: a program that brings an upper
threshold of its own is not covered by what is proved about rules. -/
inductive UpperThreshold (α : Type) where
  /-- The same for all hosts. -/
  | fixed (threshold : α)
  /-- One less `safety` times the variability, for hosts with at least `minHistory` samples. -/
  | adaptive (measure : Measure) (safety : α) (minHistory : Nat) (fallback : UpperThreshold α)
deriving DecidableEq, Repr

namespace UpperThreshold

variable {α : Type} [Scalar α]

/-- A fixed threshold, which has to be a fraction. -/
def makeFixed (threshold : α) : Except (SettingsError α) (UpperThreshold α) := do
  return .fixed (← checkFraction .overThreshold threshold)

/-- An adaptive threshold, whose safety must not be negative and which has to ask for at least one
sample. -/
def makeAdaptive (measure : Measure) (safety : α) (minHistory : Nat)
    (fallback : UpperThreshold α) : Except (SettingsError α) (UpperThreshold α) := do
  let safety ← checkNonNegative .safety safety
  let minHistory ← checkPositive .minHistory minHistory
  return .adaptive measure safety minHistory fallback

/-- The variability of a host's utilization, if its history is long enough. -/
def variability? (measure : Measure) (minHistory : Nat) (h : Host α) :
    Except Fault (Option α) := do
  let data := h.history.values
  if data.length < minHistory then return none
  return some (← measure.of data)

/-- The threshold of a host. -/
def of : UpperThreshold α → Host α → Except Fault α
  | fixed threshold, _ => .ok threshold
  | adaptive measure safety minHistory fallback, h => do
    match ← variability? measure minHistory h with
    | some spread => return 1 - safety * spread
    | none => fallback.of h

end UpperThreshold

end Datacenter
