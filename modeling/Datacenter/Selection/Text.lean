import Datacenter.Selection.Policy
import Datacenter.Settings.Options

/-!
# The designations of selection policies

How the text by which settings designate a selection policy is resolved.

`MinimumUtilization`, `MinimumMigrationTime`, `RandomSelection[seed=n]` and
`MaximumCorrelation[fallback=P]`, where `P` designates a selection policy in turn. Both options may
be left out.
-/

namespace Datacenter

namespace SelectionPolicy

variable {α : Type}

/-- The seed of random selection where none is given. -/
def defaultSeed : Nat := 123

/-- The policy that some characters designate. -/
def ofChars (text : List Char) : Except (SettingsError α) SelectionPolicy :=
  match _hoptions : Options.ofDesignation (α := α) (.ofChars text) with
  | .error e => .error e
  | .ok options =>
    let name := (Designation.ofChars text).name
    if name = "MinimumUtilization".toList then do
      Options.check options []
      return minimumUtilization
    else if name = "MinimumMigrationTime".toList then do
      Options.check options []
      return minimumMigrationTime
    else if name = "MaximumCorrelation".toList then do
      Options.check options ["fallback"]
      match _hfallback : options.find? "fallback".toList with
      | none => return maximumCorrelation minimumUtilization
      | some fallback => return maximumCorrelation (← ofChars fallback)
    else if name = "RandomSelection".toList then do
      Options.check options ["seed"]
      return random (.ofSeed (← Options.getD options "seed" Options.readSize? defaultSeed))
    else .error (.unknownName .selection (String.ofList text))
termination_by text.length
decreasing_by exact Options.length_value_lt _hoptions _hfallback

/-- The policy that a text designates. -/
def ofText (text : String) : Except (SettingsError α) SelectionPolicy :=
  ofChars text.toList

end SelectionPolicy

end Datacenter
