import Datacenter.LoadModel
import Datacenter.UtilizationHistory

/-!
# Virtual machines

A virtual machine has an id and a size: a number of virtual cores of one speed, memory, bandwidth
and storage. Speeds are in MIPS, millions of instructions per second. A load model says which
fraction of its cores the machine demands at a time, so its current request may be much lower than
its peak.

A machine that is placed knows its host. While it migrates, that is still the host it leaves.
-/

namespace Datacenter

/-- What a virtual machine has to do with a migration. -/
inductive MigrationState where
  /-- It stays where it is. -/
  | settled
  /-- It is on its way to its host. -/
  | arriving
  /-- It is leaving its host. -/
  | leaving
deriving DecidableEq, Repr

namespace MigrationState

/-- The written form. -/
def toText : MigrationState → String
  | settled => "none"
  | arriving => "migrating_in"
  | leaving => "migrating_out"

end MigrationState

/-- A virtual machine. -/
structure Vm (α : Type) where
  /-- The id. -/
  id : Nat
  /-- The number of virtual cores. -/
  vcpus : Nat
  /-- The speed of each virtual core. -/
  speed : α
  /-- The memory. -/
  ram : Nat
  /-- The bandwidth. -/
  bandwidth : Nat
  /-- The storage. -/
  storage : Nat
  /-- The host on which the machine resides. -/
  host : Option Nat
  /-- The part of a migration the machine takes. -/
  migration : MigrationState
  /-- The time from which the age is counted. -/
  startTime : α
  /-- The fraction of its cores that the machine demands. -/
  load : LoadModel α
  /-- The latest samples of the utilization. -/
  history : UtilizationHistory α

namespace Vm

variable {α : Type} [Scalar α]

/-- A machine that is not placed yet. -/
def new (id vcpus : Nat) (speed : α) (ram bandwidth storage : Nat) (load : LoadModel α) : Vm α where
  id := id
  vcpus := vcpus
  speed := speed
  ram := ram
  bandwidth := bandwidth
  storage := storage
  host := none
  migration := .settled
  startTime := 0
  load := load
  history := .empty UtilizationHistory.defaultSize

/-- Whether the machine resides on a host. -/
def isPlaced (vm : Vm α) : Bool :=
  vm.host.isSome

/-- Whether the machine takes part in a migration. -/
def isMigrating (vm : Vm α) : Bool :=
  vm.migration != .settled

/-- The speed of all cores together. -/
def peak (vm : Vm α) : α :=
  (vm.vcpus : α) * vm.speed

/-- The fraction of the cores demanded at a time, within zero and one. -/
def utilization (vm : Vm α) (time : α) : α :=
  Scalar.clamp (vm.load.demand time (time - vm.startTime)) 0 1

/-- The request of each core at a time. -/
def request (vm : Vm α) (time : α) : List α :=
  List.replicate vm.vcpus (vm.speed * vm.utilization time)

/-- The request of each core at full speed. -/
def peakRequest (vm : Vm α) : List α :=
  List.replicate vm.vcpus vm.speed

/-- The load at a time: the request of all cores together. -/
def loadAt (vm : Vm α) (time : α) : α :=
  Scalar.sum (vm.request time)

/-- Records the current utilization. -/
def recordUtilization (vm : Vm α) (time value : α) : Vm α :=
  { vm with history := vm.history.add time value }

/-- Starts with a history. -/
def withHistory (vm : Vm α) (history : UtilizationHistory α) : Vm α :=
  { vm with history := history }

/-- Starts with an empty history of a size for which there is room. -/
def withHistorySize (vm : Vm α) (size : Nat) : Vm α :=
  vm.withHistory (.empty size)

/-- Puts the machine on a host or takes it off. The age counts from the moment at which a machine
that was on no host comes to one. -/
def moveTo (vm : Vm α) (host : Option Nat) (time : α) : Vm α :=
  { vm with
    startTime := if vm.host.isNone && host.isSome then time else vm.startTime
    host := host }

end Vm

end Datacenter
