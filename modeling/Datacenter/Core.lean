import Datacenter.Scalar

/-!
# Processor cores

A core, or processing element, has a fixed capacity, in MIPS, of which some is allocated. It is
free, busy or failed; a failed core has nothing to give.
-/

namespace Datacenter

/-- The state of a core. -/
inductive CoreStatus where
  /-- Nothing is allocated. -/
  | free
  /-- The core serves a virtual machine. -/
  | busy
  /-- The core is out of order. -/
  | failed
deriving DecidableEq, Repr

/-- A core of a host. -/
structure Core (α : Type) where
  /-- The speed of the core. -/
  capacity : α
  /-- The part of the capacity that is given away. -/
  allocated : α
  /-- Whether the core is free, busy or failed. -/
  status : CoreStatus
deriving DecidableEq, Repr

namespace Core

variable {α : Type} [Scalar α]

/-- A free core. -/
def new (capacity : α) : Core α :=
  { capacity := capacity, allocated := 0, status := .free }

/-- Whether the core is in order. -/
def isWorking (c : Core α) : Bool :=
  c.status != .failed

/-- Whether the core is in order and idle. -/
def isFree (c : Core α) : Bool :=
  c.status == .free

/-- What is left of the capacity; nothing on a failed core. -/
def available (c : Core α) : α :=
  if c.isWorking then Scalar.larger (c.capacity - c.allocated) 0 else 0

/-- Takes up to `amount` of what is left: the amount taken and the core after it. -/
def allocate (c : Core α) (amount : α) : α × Core α :=
  let taken := Scalar.larger (Scalar.smaller amount c.available) 0
  if 0 < taken then (taken, { c with allocated := c.allocated + taken, status := .busy })
  else (taken, c)

/-- Marks a working core busy. -/
def reserve (c : Core α) : Core α :=
  if c.isWorking then { c with status := .busy } else c

/-- Takes everything back. -/
def reset (c : Core α) : Core α :=
  { c with allocated := 0, status := if c.isWorking then .free else .failed }

/-- Puts the core out of order. -/
def fail (c : Core α) : Core α :=
  { c with allocated := 0, status := .failed }

/-- The working ones among some cores. -/
def working (cores : List (Core α)) : List (Core α) :=
  cores.filter (·.isWorking)

end Core

end Datacenter
