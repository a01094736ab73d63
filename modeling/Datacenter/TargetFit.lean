import Datacenter.Settings.Error

/-!
# The fit of a target host

Where several hosts can take a machine, the fit decides: the best fit packs machines tightly, the
worst fit spreads them.
-/

namespace Datacenter

/-- Which of several hosts is preferred. -/
inductive TargetFit where
  /-- The host with the highest load. -/
  | best
  /-- The host with the most free cores. -/
  | worst
deriving DecidableEq, Repr

namespace TargetFit

variable {α : Type}

/-- The fit that a name designates, if it designates one. -/
def ofText? : String → Option TargetFit
  | "BestFit" => some best
  | "WorstFit" => some worst
  | _ => none

/-- The fit that a name designates. -/
def ofText (name : String) : Except (SettingsError α) TargetFit :=
  match ofText? name with
  | some fit => .ok fit
  | none => .error (.unknownName .targetFit name)

/-- The score of a host with a load and a number of free cores; higher is better. -/
def score [Scalar α] (fit : TargetFit) (load : α) (free : Nat) : α :=
  match fit with
  | best => load
  | worst => (free : α)

end TargetFit

end Datacenter
