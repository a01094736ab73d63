import Datacenter.Binary64.Basic

/-!
# The shortest decimal of a double

`Binary64.shortest` finds, for a finite positive double, the decimal with the fewest digits among
those that round to it, and among several of that length the one nearest to the double.

## The search

A finite double is `significand * 2 ^ exponent`. The reals that round to it form an interval around
it which reaches half-way to the neighbours and contains its ends if the significand is even, since
ties go to the even neighbour. In quarters of `2 ^ exponent` the double and both ends are natural
numbers (`Interval`), so every comparison with a decimal `d * 10 ^ p` is one between natural
numbers, after multiplying by powers of two and ten.

On the grid of the multiples of `10 ^ p` only the two neighbours of the double matter: if any point
of the grid lies in the interval, one of them does. `shortest` walks from a coarse grid to finer
ones and takes the first hit; seventeen digits always suffice.
-/

namespace Datacenter

namespace Binary64

/-- A double and the ends of the interval of reals that round to it, all in multiples of
`2 ^ exponent`. -/
structure Interval where
  /-- The lower end. -/
  low : Nat
  /-- The double itself. -/
  value : Nat
  /-- The upper end. -/
  high : Nat
  /-- Whether the ends belong to the interval. -/
  closed : Bool
  /-- The exponent of the common unit. -/
  exponent : Int
deriving Repr

/-- The weight of the leading bit of a normal significand, which the pattern leaves out. -/
def leadingBit : Nat :=
  0x10000000000000

/-- The significand and the exponent of a finite magnitude. -/
def significand (magnitude : Nat) : Nat × Int :=
  let field : Nat := magnitude / leadingBit
  let fraction : Nat := magnitude % leadingBit
  if field = 0 then (fraction, -1074) else (leadingBit + fraction, (field : Int) - 1075)

/-- The interval of a finite magnitude. Below a power of two the neighbour is only half as far
away as above it. -/
def interval (magnitude : Nat) : Interval :=
  let (m, e) := significand magnitude
  let isPower := magnitude % leadingBit = 0 ∧ 2 * leadingBit ≤ magnitude
  { low := if isPower then 4 * m - 1 else 4 * m - 2
    value := 4 * m
    high := 4 * m + 2
    closed := m % 2 = 0
    exponent := e - 2 }

namespace Interval

/-- The factors that turn a decimal `d * 10 ^ p` and a multiple `v * 2 ^ exponent` into natural
numbers `d * scale.1` and `v * scale.2` which compare in the same way. -/
def scale (i : Interval) (p : Int) : Nat × Nat :=
  (Nat.pow 10 p.toNat <<< (-i.exponent).toNat, Nat.pow 10 (-p).toNat <<< i.exponent.toNat)

/-- Whether the decimal `d * 10 ^ p` rounds to the double. -/
def contains (i : Interval) (p : Int) (d : Nat) : Bool :=
  let (a, b) := i.scale p
  if i.closed then i.low * b ≤ d * a && d * a ≤ i.high * b
  else i.low * b < d * a && d * a < i.high * b

/-- The multiple of `10 ^ p` nearest to the double among its two neighbours on that grid, if any of
them rounds to it. A tie goes to the larger one. -/
def hit? (i : Interval) (p : Int) : Option Nat :=
  let (a, b) := i.scale p
  let below := i.value * b / a
  let above := below + 1
  match i.contains p below, i.contains p above with
  | true, true => some (if above * a - i.value * b ≤ i.value * b - below * a then above else below)
  | true, false => some below
  | false, true => some above
  | false, false => none

/-- The first hit on the grids of `10 ^ p`, `10 ^ (p - 1)` and so on, `grids` of them. -/
def search (i : Interval) : Nat → Int → Nat × Int
  | 0, p => (i.value * (i.scale p).2 / (i.scale p).1, p)
  | grids + 1, p =>
    match i.hit? p with
    | some d => (d, p)
    | none => i.search grids (p - 1)

end Interval

/-- The digits `d` and the exponent `p` of the shortest decimal `d * 10 ^ p` that rounds to the
finite double of this magnitude. -/
def shortest (magnitude : Nat) : Nat × Int :=
  if magnitude = 0 then (0, 0)
  else
    let i := interval magnitude
    let bits : Int := (i.value.log2 : Int) + i.exponent
    i.search 22 (bits * 30103 / 100000 + 2)

end Binary64

end Datacenter
