import Datacenter.Scalar
import Datacenter.Sorting

/-!
# Load models

A load model says which fraction of its capacity a virtual machine demands, as a function of the
time and of the machine's age. Any such function is a load model; the ones given here are the
constant load and loads replayed from a trace of samples, by the time or by the age.
-/

namespace Datacenter

/-- The demanded fraction of a capacity at a time and an age. -/
structure LoadModel (α : Type) where
  /-- The fraction demanded at a time and an age. -/
  demand : (time age : α) → α

namespace LoadModel

variable {α : Type} [Scalar α]

/-- The same load at all times. -/
def constant (load : α) : LoadModel α :=
  ⟨fun _ _ => load⟩

/-- The value in force at `time` among samples sorted by time: that of the last sample not after
`time`, or of the first sample if all are after it. -/
def valueAt (sorted : List (α × α)) (time : α) : α :=
  match hfound : partitionPoint (fun s => s.1 ≤ time) sorted with
  | 0 => sorted.head?.elim 0 Prod.snd
  | i + 1 => (sorted.get ⟨i, lt_length_of_partitionPoint hfound⟩).2

/-- Samples in the order of their times; samples for one time keep their order. -/
def sortSamples (samples : List (α × α)) : List (α × α) :=
  stableSort (fun a b => inOrder a.1 b.1) samples

/-- The load replayed from samples of times and loads. -/
def trace (samples : List (α × α)) : LoadModel α :=
  let sorted := sortSamples samples
  ⟨fun time _ => valueAt sorted time⟩

/-- The load replayed from samples of ages and loads. -/
def traceByAge (samples : List (α × α)) : LoadModel α :=
  let sorted := sortSamples samples
  ⟨fun _ age => valueAt sorted age⟩

end LoadModel

end Datacenter
