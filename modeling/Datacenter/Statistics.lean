import Datacenter.Fault
import Datacenter.Scalar
import Datacenter.Sorting

/-!
# Statistics of utilization samples

Mean, median, percentiles and two robust measures of spread: the median absolute deviation and the
interquartile range. All of them are zero for an empty data set.

## Percentiles

The `p`-th percentile of `n` sorted values is read at the position `p * (n + 1) / 100`, counted
from one. Positions below the first value give the first one, positions from the last one on give
the last one, and a position between two values interpolates linearly. A position that is no value
at all points nowhere, which is a fault.
-/

namespace Datacenter.Statistics

variable {α : Type} [Scalar α]

open Scalar

/-- The arithmetic mean. -/
def mean (data : List α) : α :=
  if data.isEmpty then 0 else sum data / (data.length : α)

/-- The middle of the sorted data, or the mean of the two values in the middle. -/
def median (data : List α) : α :=
  let sorted := ascending data
  let middle := sorted.length / 2
  if sorted.isEmpty then 0
  else if sorted.length % 2 = 0 then
    (sorted.getD (middle - 1) 0 + sorted.getD middle 0) / 2
  else sorted.getD middle 0

/-- The distances of the data from their median. -/
def deviations (data : List α) : List α :=
  let center := median data
  data.map fun x => Scalar.abs (x - center)

/-- The median absolute deviation. -/
def mad (data : List α) : α :=
  median (deviations data)

/-- The value at a position between two neighbours of the sorted data, counted from one. -/
def interpolate (sorted : List α) (position : α) : Except Fault α := do
  let below := Scalar.truncate position
  if below = 0 then throw .outOfRange
  let lower ← elementAt sorted (below - 1)
  let upper ← elementAt sorted below
  return lower + (position - (below : α)) * (upper - lower)

/-- The `p`-th percentile. -/
def percentile (data : List α) (p : α) : Except Fault α :=
  let sorted := ascending data
  let n : α := (sorted.length : α)
  let position := p * (n + 1) / 100
  match sorted.head?, sorted.getLast? with
  | some first, some last =>
    if position < 1 then .ok first
    else if n ≤ position then .ok last
    else interpolate sorted position
  | _, _ => .ok 0

/-- The interquartile range: the distance between the 25th and the 75th percentile. -/
def iqr (data : List α) : Except Fault α := do
  let upper ← percentile data 75
  let lower ← percentile data 25
  return upper - lower

end Datacenter.Statistics
