import Datacenter.Settings.Basic
import Datacenter.Yaml.Value

/-!
# Settings documents

Settings are written as a YAML document, a mapping from the names of the parameters to their values.
Parameters that are absent have their default values, names that stand for no parameter are ignored.
Every host is a mapping too, in which its size has to be given. Instead of a mapping there may be a
sequence of all values, in the order of `Settings.names` or `HostSpec.names`.

`Settings.ofText` reads a document and checks the parameters.

This is for programs that take their settings from a file. Everything else starts from `Settings`,
and no theorem rests on how they were read (`Datacenter/Yaml/Cursor.lean`).
-/

namespace Datacenter

open Yaml

namespace HostSpec

variable {α : Type} [TextScalar α]

/-- The names of the parameters of a host. -/
def names : List String :=
  ["name", "name_prefix", "pes", "mips_per_pe", "ram", "bw", "storage", "scheduler", "count"]

/-- The host that a node describes. -/
def ofNode? (n : Node) : Option (HostSpec α) := do
  let fields ← Fields.ofNode? names n
  return {
    name := ← fields.optional? "name" Node.string?
    namePrefix := ← fields.optional? "name_prefix" Node.string?
    cores := ← fields.required? "pes" (Node.nat? maxCount)
    speed := ← fields.required? "mips_per_pe" Node.number?
    ram := ← fields.required? "ram" (Node.nat? maxQuantity)
    bandwidth := ← fields.required? "bw" (Node.nat? maxQuantity)
    storage := ← fields.required? "storage" (Node.nat? maxQuantity)
    scheduler := ← fields.optional? "scheduler" Node.string?
    count := ← fields.optional? "count" (Node.nat? maxCount) }

end HostSpec

namespace Settings

variable {α : Type} [TextScalar α]

/-- The names of the parameters. -/
def names : List String :=
  ["vm_migration_cpu_overhead", "parallel_host_search", "parallel_search_threshold",
    "utilization_history_size", "min_history_size_for_measure", "over_utilization_threshold",
    "under_utilization_threshold", "safety_parameter", "vm_selection_policy",
    "vm_allocation_policy", "hosts"]

/-- The settings that a node describes. -/
def ofNode? (n : Node) : Option (Settings α) := do
  let fields ← Fields.ofNode? names n
  let base : Settings α := default
  let number (name : String) (absent : α) := do
    return (← fields.optional? name Node.number?).getD absent
  let size (name : String) (absent : Nat) := do
    return (← fields.optional? name (Node.nat? maxQuantity)).getD absent
  let string (name : String) (absent : String) := do
    return (← fields.optional? name Node.string?).getD absent
  return {
    migrationOverhead := ← number "vm_migration_cpu_overhead" base.migrationOverhead
    parallelSearch :=
      (← fields.optional? "parallel_host_search" Node.bool?).getD base.parallelSearch
    parallelThreshold := ← size "parallel_search_threshold" base.parallelThreshold
    historySize := ← size "utilization_history_size" base.historySize
    minHistory := ← size "min_history_size_for_measure" base.minHistory
    overThreshold := ← number "over_utilization_threshold" base.overThreshold
    underThreshold := ← number "under_utilization_threshold" base.underThreshold
    safety := ← number "safety_parameter" base.safety
    selectionPolicy := ← string "vm_selection_policy" base.selectionPolicy
    allocationPolicy := ← string "vm_allocation_policy" base.allocationPolicy
    hosts := (← fields.optional? "hosts" (Node.list? HostSpec.ofNode?)).getD base.hosts }

/-- The settings of a document, which have to be valid. -/
def ofText (text : String) : Except (SettingsError α) (Settings α) := do
  match (Node.ofChars? text.toList).bind ofNode? with
  | some settings =>
    settings.validate
    return settings
  | none => throw .malformed

end Settings

end Datacenter
