import Datacenter.Processor.Basic
import Datacenter.Settings.Options

/-!
# Schedulers

A scheduler is what a host's processor is set up with: the discipline by which machines share the
cores, and the overhead of a migration. Settings designate it as `TimeShared` or `SpaceShared`,
neither of which takes options.
-/

namespace Datacenter

/-- A discipline and the overhead of a migration. -/
structure Scheduler (α : Type) where
  /-- How machines share the cores. -/
  discipline : Discipline
  /-- The fraction of its share that a migrating machine loses. -/
  overhead : α

namespace Scheduler

variable {α : Type} [TextScalar α]

/-- A scheduler, whose overhead has to be a fraction. -/
def make (discipline : Discipline) (overhead : α) : Except (SettingsError α) (Scheduler α) := do
  let overhead ← checkFraction .migrationOverhead overhead
  return { discipline := discipline, overhead := overhead }

/-- The scheduler that a text designates. -/
def ofText (text : String) (overhead : α) : Except (SettingsError α) (Scheduler α) := do
  let designation := Designation.ofChars text.toList
  let options ← Options.ofDesignation designation
  if designation.name = "TimeShared".toList then
    Options.check options []
    make .timeShared overhead
  else if designation.name = "SpaceShared".toList then
    Options.check options []
    make (.spaceShared ∅) overhead
  else throw (.unknownName .scheduler (String.ofList designation.name))

/-- The processor of a new host. -/
def processor (s : Scheduler α) (cores : List (Core α)) : Processor α :=
  .new cores s.discipline s.overhead

end Scheduler

end Datacenter
