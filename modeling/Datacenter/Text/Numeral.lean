/-!
# Numerals

The written forms of numbers that settings and options may use, as lists of characters.

* A *natural numeral* is an optional `+` and at least one digit.
* A *decimal numeral* is an optional sign, digits with at most one point among, before or after
  them (at least one digit in all), and an optional exponent: `12`, `-0.5`, `.5`, `5.`, `1e-3`.
* The words `inf`, `infinity` and `nan`, in any mixture of cases and with an optional sign, spell
  the numbers that no digits can.

Nothing else is a numeral of these forms: no blanks, no separators between digits, no other base.
Digits to other bases are read by `inBase?`.
-/

namespace Datacenter

/-- What a numeral spells. -/
inductive Numeral where
  /-- The number `mantissa * 10 ^ exponent`, below zero if `negative`. -/
  | decimal (negative : Bool) (mantissa : Nat) (exponent : Int)
  /-- An infinity. -/
  | infinity (negative : Bool)
  /-- No value at all. -/
  | nan (negative : Bool)
deriving DecidableEq, Repr

namespace Numeral

/-- The value of a digit. -/
def digitValue (c : Char) : Nat :=
  c.toNat - '0'.toNat

/-- The number that some digits spell in base ten. -/
def ofDigits (ds : List Char) : Nat :=
  ds.foldl (fun n d => 10 * n + digitValue d) 0

/-- The value of a digit to a base of at most sixteen. -/
def digit? (base : Nat) (c : Char) : Option Nat :=
  let value :=
    if c.isDigit then some (digitValue c)
    else if 'a' ≤ c && c ≤ 'f' then some (c.toNat - 'a'.toNat + 10)
    else if 'A' ≤ c && c ≤ 'F' then some (c.toNat - 'A'.toNat + 10)
    else none
  value.filter (· < base)

/-- The number that digits spell to a base; there has to be at least one of them. -/
def inBase? (base : Nat) (ds : List Char) : Option Nat :=
  if ds.isEmpty then none
  else ds.foldlM (fun n d => (digit? base d).map (base * n + ·)) 0

/-- Splits off the digits in front. -/
def spanDigits (cs : List Char) : List Char × List Char :=
  (cs.takeWhile Char.isDigit, cs.dropWhile Char.isDigit)

/-- Splits off a sign in front; `true` stands for a minus. -/
def spanSign : List Char → Bool × List Char
  | '-' :: cs => (true, cs)
  | '+' :: cs => (false, cs)
  | cs => (false, cs)

/-- The natural number that a whole text spells. -/
def natural? (cs : List Char) : Option Nat :=
  let ds := match cs with
    | '+' :: ds => ds
    | ds => ds
  if ds.isEmpty || !ds.all Char.isDigit then none else some (ofDigits ds)

/-- The exponent that follows the digits of a numeral, which is the rest of the text: nothing, or
`e` and an integer. -/
def exponent? : List Char → Option Int
  | [] => some 0
  | c :: cs =>
    if c = 'e' ∨ c = 'E' then
      let (negative, ds) := spanSign cs
      if ds.isEmpty || !ds.all Char.isDigit then none
      else if negative then some (-(ofDigits ds : Int)) else some (ofDigits ds)
    else none

/-- The digits before and after the point, and what follows them. -/
def spanPoint (cs : List Char) : List Char × List Char × List Char :=
  let (whole, rest) := spanDigits cs
  match rest with
  | '.' :: rest =>
    let (fraction, rest) := spanDigits rest
    (whole, fraction, rest)
  | rest => (whole, [], rest)

/-- The number that a text without a sign spells. -/
def unsigned? (negative : Bool) (cs : List Char) : Option Numeral :=
  let word := cs.map Char.toLower
  if word = ['i', 'n', 'f'] ∨ word = ['i', 'n', 'f', 'i', 'n', 'i', 't', 'y'] then
    some (.infinity negative)
  else if word = ['n', 'a', 'n'] then
    some (.nan negative)
  else
    let (whole, fraction, rest) := spanPoint cs
    if whole.isEmpty && fraction.isEmpty then none
    else (exponent? rest).map fun e =>
      .decimal negative (ofDigits (whole ++ fraction)) (e - fraction.length)

/-- The number that a whole text spells. -/
def ofChars? (cs : List Char) : Option Numeral :=
  let (negative, rest) := spanSign cs
  unsigned? negative rest

/-- The number that a whole text spells. -/
def ofText? (s : String) : Option Numeral :=
  ofChars? s.toList

end Numeral

end Datacenter
