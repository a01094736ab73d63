import Datacenter.Allocation.Policy
import Datacenter.Selection.Text
import Datacenter.Settings.Basic

/-!
# The designations of allocation policies

How the text by which settings designate an allocation policy is resolved.

`Simple`, `FirstFit` and `BestFit` take no options. `StaticThreshold`, `MigrationBestFit`,
`MigrationWorstFit` and `DynamicUpperThreshold` are policies with consolidation. They take the
options `fit`, `over` and `under`, and the last one also `measure`, `safety`, `min_history` and
`fallback`. What is not given is taken from the settings, the selection policy always.

Of several faults the first one in the order of these definitions is reported.
-/

namespace Datacenter

namespace AllocationPolicy

variable {α : Type} [TextScalar α]

/-- The options of policies with a fixed threshold. -/
def fixedOptions : List String :=
  ["fit", "over", "under"]

/-- The options of policies with an adaptive threshold. -/
def adaptiveOptions : List String :=
  fixedOptions ++ ["measure", "safety", "min_history", "fallback"]

/-- How the settings want hosts to be searched. -/
def searchOf (settings : Settings α) : HostSearch :=
  { parallel := settings.parallelSearch, threshold := settings.parallelThreshold }

/-- The thresholds of underload and overload that options give, where the first one has to be below
the second one. -/
def thresholdsOf (options : Options) (settings : Settings α) :
    Except (SettingsError α) (α × α) := do
  let upper ← Options.getD options "over" Options.readScalar? settings.overThreshold
  let lower ← Options.getD options "under" Options.readScalar? settings.underThreshold
  let lower ← checkFraction .underThreshold lower
  let upper ← checkFraction .overThreshold upper
  checkThresholds lower upper
  return (lower, upper)

/-- The threshold that a name stands for as a fallback. -/
def fallbackOf (name : String) (upper : α) : Except (SettingsError α) (UpperThreshold α) :=
  if name = "StaticThreshold" then UpperThreshold.makeFixed upper
  else .error (.unknownName .fallbackThreshold name)

/-- The adaptive threshold that options give. -/
def adaptiveOf (options : Options) (settings : Settings α) (upper : α) :
    Except (SettingsError α) (UpperThreshold α) := do
  let fallback ← Options.getD options "fallback" (some ∘ String.ofList) "StaticThreshold"
  let measure ← Options.getD options "measure" (Measure.ofText? ∘ String.ofList) Measure.mad
  let safety ← Options.getD options "safety" Options.readScalar? settings.safety
  let minHistory ← Options.getD options "min_history" Options.readSize? settings.minHistory
  let fallback ← fallbackOf fallback upper
  UpperThreshold.makeAdaptive measure safety minHistory fallback

/-- The policy with consolidation that options give. -/
def consolidatingOf (options : Options) (settings : Settings α) (adaptive : Bool)
    (defaultFit : TargetFit) : Except (SettingsError α) (AllocationPolicy α) := do
  Options.check options (if adaptive then adaptiveOptions else fixedOptions)
  let fit ← Options.getD options "fit" (TargetFit.ofText? ∘ String.ofList) defaultFit
  let (lower, upper) ← thresholdsOf options settings
  let threshold ← if adaptive then adaptiveOf options settings upper
    else UpperThreshold.makeFixed upper
  let selection ← SelectionPolicy.ofText settings.selectionPolicy
  let rule ← Consolidation.Rule.make (searchOf settings) fit threshold lower
  return consolidating rule selection

/-- The policy that a text designates under some settings. -/
def ofText (text : String) (settings : Settings α) :
    Except (SettingsError α) (AllocationPolicy α) := do
  let designation := Designation.ofChars text.toList
  let options ← Options.ofDesignation designation
  match String.ofList designation.name with
  | "Simple" => do
    Options.check options []
    return simple (searchOf settings)
  | "FirstFit" => do
    Options.check options []
    return firstFit (searchOf settings)
  | "BestFit" => do
    Options.check options []
    return bestFit (searchOf settings)
  | "StaticThreshold" => consolidatingOf options settings false .worst
  | "MigrationBestFit" => consolidatingOf options settings false .best
  | "MigrationWorstFit" => consolidatingOf options settings false .worst
  | "DynamicUpperThreshold" => consolidatingOf options settings true .worst
  | _ => throw (.unknownName .allocation text)

end AllocationPolicy

end Datacenter
