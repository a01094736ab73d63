import Datacenter.Binary64.Shortest
import Datacenter.Text.Numeral

/-!
# The written form of a double

A double is written with the fewest digits that read back as the same double
(`Binary64.shortest`), always in positional notation, whatever its size. It has a point only if
digits follow it, and a minus if its sign bit is set, zero included. The infinities are `inf` and
`-inf`; a NaN is `NaN`, its sign is not written.

Reading takes every numeral and rounds it to the nearest double.
-/

namespace Datacenter

namespace Binary64

/-- Writes `digits * 10 ^ exponent` without an exponent. -/
def positional (digits : List Char) (exponent : Int) : List Char :=
  if 0 ≤ exponent then digits ++ List.replicate exponent.toNat '0'
  else
    let places := (-exponent).toNat
    if places < digits.length then
      digits.take (digits.length - places) ++ '.' :: digits.drop (digits.length - places)
    else
      '0' :: '.' :: (List.replicate (places - digits.length) '0' ++ digits)

/-- The characters of the written form. -/
def toChars (x : Binary64) : List Char :=
  if x.isNaN then ['N', 'a', 'N']
  else
    let sign := if x.isNegative then ['-'] else []
    if x.isFinite then
      let (digits, exponent) := shortest x.magnitude.toNat
      sign ++ positional (Nat.toDigits 10 digits) exponent
    else sign ++ ['i', 'n', 'f']

/-- The written form. -/
def toText (x : Binary64) : String :=
  String.ofList x.toChars

/-- Sets the sign. -/
def withSign (negative : Bool) (x : Binary64) : Binary64 :=
  if negative then x.neg else x

/-- The double nearest to `mantissa * 10 ^ exponent`. Numbers that are certainly above the largest
double or below the half of the smallest one are not computed. -/
def nearest (mantissa : Nat) (exponent : Int) : Binary64 :=
  let size := (mantissa.log2 : Int) * 30103 / 100000 + exponent
  if mantissa = 0 || size < -400 then ⟨0⟩
  else if 400 < size then infinity
  else if 0 ≤ exponent then ofDecimal mantissa false exponent.toNat
  else ofDecimal mantissa true (-exponent).toNat

/-- The double that a numeral spells. -/
def ofNumeral : Numeral → Binary64
  | .decimal negative mantissa exponent => (nearest mantissa exponent).withSign negative
  | .infinity negative => infinity.withSign negative
  | .nan negative => nan.withSign negative

/-- The double that a whole text spells. -/
def ofText? (s : String) : Option Binary64 :=
  (Numeral.ofText? s).map ofNumeral

instance : TextScalar Binary64 where
  ofText? := ofText?
  toText := toText

end Binary64

end Datacenter
