import Datacenter.Fault
import Datacenter.Scalar
import Datacenter.Text.Numeral
import Datacenter.Yaml.Node

/-!
# Values of nodes

What a plain scalar means depends on what is wanted: as a text, any scalar stands for itself; as a
number or a truth value, only plain scalars of the right form will do.

* An *integer* is an optional sign and digits, without leading zeros, or, after `0x`, `0o` or `0b`,
  with digits to the base sixteen, eight or two. Integers between the range of sixty-four bits and
  that of one hundred and twenty-eight bits are rejected; those beyond are numbers but no integers.
* A *number* is an integer, a decimal numeral with a finite value, or one of the words for the
  infinities and for no value at all.
* `~` and `null`, written plainly, stand for an absent value, and so does a node that is left out.

A record is a mapping from the names of its fields, or a sequence of all of them in order.

This is for reading settings from a file (`Datacenter/Yaml/Cursor.lean`); no theorem rests on it.
-/

namespace Datacenter.Yaml

namespace Node

/-- Whether the node stands for an absent value. -/
def isAbsent : Node → Bool
  | .scalar true text => text == ['~'] || text == "null".toList
  | _ => false

/-- The text of a scalar. -/
def text? : Node → Option (List Char)
  | .scalar _ text => some text
  | _ => none

/-- The text of a plain scalar. -/
def plain? : Node → Option (List Char)
  | .scalar true text => some text
  | _ => none

/-- The items of a sequence. -/
def items? : Node → Option (List Node)
  | .sequence items => some items
  | _ => none

/-- The entries of a mapping whose keys are scalars. -/
def entries? : Node → Option (List (List Char × Node))
  | .mapping entries => entries.mapM fun (key, value) => key.text?.map (·, value)
  | _ => none

/-- The truth value of a scalar. -/
def bool? (n : Node) : Option Bool := do
  let text ← n.plain?
  if text = "true".toList then some true
  else if text = "false".toList then some false
  else none

end Node

/-! ## Numbers -/

/-- The text without signs in front. -/
def withoutSigns (cs : List Char) : List Char :=
  cs.dropWhile fun c => c == '+' || c == '-'

/-- Whether a text has digits only, the first of several being a zero. -/
def hasLeadingZero (cs : List Char) : Bool :=
  let ds := withoutSigns cs
  1 < ds.length && ds.head? == some '0' && ds.all Char.isDigit

/-- The integer that a text spells, however large. -/
def spelledInteger? (cs : List Char) : Option Int :=
  let (negative, ds) := Numeral.spanSign cs
  if ds.isEmpty || !ds.all Char.isDigit then none
  else if negative then some (-(Numeral.ofDigits ds : Int)) else some (Numeral.ofDigits ds)

/-- The base that a letter after a zero announces. -/
def base? : Char → Option Nat
  | 'x' => some 16
  | 'o' => some 8
  | 'b' => some 2
  | _ => none

/-- The integer that a text spells to the base that it announces, however large. The digits may have
a plus of their own if no minus comes before the base. -/
def announcedInteger? (cs : List Char) : Option Int :=
  match Numeral.spanSign cs with
  | (negative, '0' :: letter :: ds) => do
    let base ← base? letter
    if negative then return -(← Numeral.inBase? base ds : Int)
    else return ← Numeral.inBase? base (if ds.head? == some '+' then ds.tail else ds)
  | _ => none

/-- Whether an integer has at most so many bits, read with or without a sign. -/
def fitsBits (bits : Nat) (i : Int) : Bool :=
  -Int.pow 2 (bits - 1) ≤ i && i < Int.pow 2 bits

/-- The integer that a plain scalar means. -/
def integer? (cs : List Char) : Option Int :=
  if hasLeadingZero cs then none
  else (announcedInteger? cs <|> spelledInteger? cs).filter (fitsBits 64)

/-- What a word for an infinity or for no value at all is called as a numeral. -/
def word? (cs : List Char) : Option String :=
  let unsigned := String.ofList (cs.dropWhile (· == '+'))
  let text := String.ofList cs
  if [".inf", ".Inf", ".INF"].contains unsigned then some "inf"
  else if ["-.inf", "-.Inf", "-.INF"].contains text then some "-inf"
  else if [".nan", ".NaN", ".NAN"].contains text then some "nan"
  else none

/-- The number that a plain scalar means. -/
def number? {α : Type} [TextScalar α] (cs : List Char) : Option α :=
  if hasLeadingZero cs then none
  else match integer? cs with
    | some i => some (if i < 0 then -(i.natAbs : α) else (i.natAbs : α))
    | none =>
      if ((spelledInteger? cs).map (fitsBits 128)).getD false then none
      else match word? cs with
        | some word => TextScalar.ofText? word
        | none => (TextScalar.ofText? (String.ofList cs)).filter Scalar.isFinite

namespace Node

/-- The natural number of a scalar, up to a bound. -/
def nat? (bound : Nat) (n : Node) : Option Nat := do
  let i ← integer? (← n.plain?)
  if 0 ≤ i && i ≤ bound then some i.natAbs else none

/-- The number of a scalar. -/
def number? {α : Type} [TextScalar α] (n : Node) : Option α := do
  Yaml.number? (← n.plain?)

/-- The text of a scalar. -/
def string? (n : Node) : Option String :=
  n.text?.map String.ofList

/-- The value of a node that may be absent. -/
def orAbsent {β : Type} (read? : Node → Option β) (n : Node) : Option (Option β) :=
  if n.isAbsent then some none else (read? n).map some

/-- The items of a sequence as `read?` reads them. -/
def list? {β : Type} (read? : Node → Option β) (n : Node) : Option (List β) := do
  (← n.items?).mapM read?

end Node

/-! ## Fields -/

/-- The entries of a mapping, by name. -/
abbrev Fields := List (List Char × Node)

namespace Fields

/-- The fields of a record whose fields have these names. -/
def ofNode? (names : List String) : Node → Option Fields
  | .sequence items =>
    if items.length = names.length then some ((names.map String.toList).zip items) else none
  | n => n.entries?

/-- The value of a field that has to be there exactly once. -/
def required? {β : Type} (fields : Fields) (name : String) (read? : Node → Option β) : Option β :=
  match fields.filter fun f => f.1 == name.toList with
  | [f] => read? f.2
  | _ => none

/-- The value of a field that may be absent but not be there more than once. -/
def optional? {β : Type} (fields : Fields) (name : String) (read? : Node → Option β) :
    Option (Option β) :=
  match fields.filter fun f => f.1 == name.toList with
  | [] => some none
  | [f] => f.2.orAbsent read?
  | _ => none

end Fields

end Datacenter.Yaml
