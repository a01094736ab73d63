/-!
# Reproducible choices

A generator of pseudo-random numbers, seeded so that runs can be repeated: a linear congruential
sequence of 128 bits, whose states are folded and rotated into outputs of 64 bits.

The sequence and the way in which positions are drawn are those of a library. Selection policies
only rely on it that an element is chosen from every list that has one (`Generator.IsChoice`, in
`Datacenter/Proofs/Selection/Choosing.lean`).
-/

namespace Datacenter

/-- The state of a generator and the increment of its sequence. -/
structure Generator where
  /-- The state. -/
  state : BitVec 128
  /-- The increment, which is odd. -/
  increment : BitVec 128
deriving DecidableEq, Repr

namespace Generator

/-- The factor of the sequence of states. -/
def multiplier : BitVec 128 := 0x2360ED051FC65DA44385DF649FCCF645#128

/-- The next state. -/
def step (g : Generator) : Generator :=
  { g with state := g.state * multiplier + g.increment }

/-- The output of a state: its halves folded together and rotated by its highest bits. -/
def output (state : BitVec 128) : BitVec 64 :=
  let folded := (state >>> 64).truncate 64 ^^^ state.truncate 64
  folded.rotateRight (state >>> 122).toNat

/-! ## Seeding -/

/-- The next state of the sequence that spreads a seed. -/
def spread (s : BitVec 64) : BitVec 64 :=
  s * 6364136223846793005#64 + 11634580027462260723#64

/-- The word of a state of that sequence. -/
def word (s : BitVec 64) : BitVec 32 :=
  let folded : BitVec 32 := (((s >>> 18) ^^^ s) >>> 27).truncate 32
  folded.rotateRight (s >>> 59).toNat

/-- The first `n` words spread from a seed, the last one first, put before others. -/
def words : Nat → BitVec 64 → List (BitVec 32) → List (BitVec 32)
  | 0, _, acc => acc
  | n + 1, s, acc => words n (spread s) (word (spread s) :: acc)

/-- The number whose digits to the base `2 ^ 32` are given, the highest one first. -/
def join (ws : List (BitVec 32)) : Nat :=
  ws.foldl (fun n w => n * UInt32.size + w.toNat) 0

/-- The generator of a seed: the first four of eight words spread from it are the state, the others
the increment. -/
def ofSeed (seed : Nat) : Generator :=
  let ws := words 8 (BitVec.ofNat 64 seed) []
  let increment := BitVec.ofNat 128 (join (ws.take 4)) ||| 1#128
  let state := BitVec.ofNat 128 (join (ws.drop 4))
  step { state := state + increment, increment := increment }

/-! ## Choosing -/

/-- The next output of 32 bits, and the generator after it. -/
def next (g : Generator) : Nat × Generator :=
  let g := g.step
  ((output g.state).toNat % UInt32.size, g)

/-- The greatest lower half of a product `v * n` that is accepted, so that all positions below `n`
are equally likely. -/
def zone (n : Nat) : Nat :=
  (n <<< (31 - n.log2)) % UInt32.size - 1

/-- Draws until a number is accepted, at most as often as given and once more; the last draw is
accepted as it is. At least every other number of all is accepted, so a bound that is not small is
never met in practice. -/
def draw (n : Nat) : Nat → Generator → Nat × Generator
  | 0, g =>
    let (v, g) := g.next
    (v * n / UInt32.size, g)
  | draws + 1, g =>
    let (v, g) := g.next
    if v * n % UInt32.size ≤ zone n then (v * n / UInt32.size, g) else draw n draws g

/-- Chooses an element of a list. Nothing is drawn for an empty list. Rejection sampling has no
bound on the number of draws; here a thousand are rejected at most. -/
def choose {β : Type} (g : Generator) (xs : List β) : Option β × Generator :=
  if xs.isEmpty then (none, g)
  else
    let (i, g) := draw xs.length 1000 g
    (xs[i]?, g)

end Generator

end Datacenter
