import Datacenter.Text.Numeral
import Datacenter.Yaml.Cursor

/-!
# Scalars in the text

A scalar is a piece of text that is written plainly or between single or double quotes. It may run
over several lines, which are then joined: the white space around a line end counts as one space,
or, if there are empty lines, as one line feed for each of them (`Gap.toChars`).

* A plain scalar ends before `: `, before ` #`, and in flow collections before their marks. In a
  block its further lines have to be indented deeper than the block.
* Between single quotes a quote is written twice. Between double quotes a backslash starts an
  escape; before a line end it joins the lines without a space.

This is for reading settings from a file (`Datacenter/Yaml/Cursor.lean`); no theorem rests on it.
-/

namespace Datacenter.Yaml

/-! ## Gaps -/

/-- White space inside of a scalar. -/
structure Gap where
  /-- The spaces before the first line end, the last one first. -/
  spaces : List Char
  /-- The number of line ends. -/
  breaks : Nat
  /-- Whether an escaped line end comes before. -/
  joined : Bool
deriving DecidableEq, Repr

namespace Gap

/-- No white space. -/
def none : Gap := { spaces := [], breaks := 0, joined := false }

/-- The gap that begins after an escaped line end. -/
def afterJoin : Gap := { none with joined := true }

/-- Whether there is no white space. -/
def isNone (g : Gap) : Bool :=
  g == none

/-- Whether the gap goes over a line end. -/
def crossesLines (g : Gap) : Bool :=
  g.joined || 0 < g.breaks

/-- The gap with one more space; spaces at the beginning of a line do not count. -/
def addSpace (g : Gap) (c : Char) : Gap :=
  if g.crossesLines then g else { g with spaces := c :: g.spaces }

/-- The gap with one more line end. -/
def addBreak (g : Gap) : Gap :=
  { g with spaces := [], breaks := g.breaks + 1 }

/-- What stands for the gap in the value of the scalar. -/
def toChars (g : Gap) : List Char :=
  if g.joined then List.replicate g.breaks '\n'
  else match g.breaks with
    | 0 => g.spaces.reverse
    | 1 => [' ']
    | emptyLines + 1 => List.replicate emptyLines '\n'

end Gap

/-- A scalar that has been read. -/
structure Lexeme where
  /-- The value. -/
  text : List Char
  /-- Whether white space with a line end follows. -/
  endsLine : Bool
  /-- The place after the scalar and the white space that follows. -/
  cursor : Cursor

/-! ## Plain scalars -/

/-- Whether a plain scalar ends before a character that is no white space. -/
def endsPlain (inFlow : Bool) (margin : Nat) (gap : Gap) (p : Position) (c : Char)
    (rest : List Char) : Bool :=
  (!gap.isNone &&
      ((!inFlow && p.column < margin) || c == '#' ||
        (p.column == 0 && startsDocumentMark (c :: rest)))) ||
    (c == ':' && (startsBlank rest || (inFlow && startsFlowMark rest))) ||
    (inFlow && isFlowMark c)

/-- Reads a plain scalar whose further lines have to start at the margin. `text` is what has been
read so far, the last character first. Tabulators must not indent further lines. -/
def readPlain (inFlow : Bool) (margin : Nat) (text : List Char) (gap : Gap) (p : Position) :
    List Char → Option Lexeme
  | [] =>
    some { text := text.reverse, endsLine := gap.crossesLines, cursor := ⟨p, []⟩ }
  | '\r' :: '\n' :: rest =>
    readPlain inFlow margin text gap.addBreak ((p.after '\r').after '\n') rest
  | c :: rest =>
    if isBreak c then readPlain inFlow margin text gap.addBreak (p.after c) rest
    else if isSpace c then
      if gap.crossesLines && c == '\t' && p.column < margin then none
      else readPlain inFlow margin text (gap.addSpace c) (p.after c) rest
    else if endsPlain inFlow margin gap p c rest then
      some { text := text.reverse, endsLine := gap.crossesLines, cursor := ⟨p, c :: rest⟩ }
    else readPlain inFlow margin (c :: (gap.toChars.reverse ++ text)) .none (p.after c) rest

/-! ## Quoted scalars -/

/-- The character whose code the first digits of a text are, to the base sixteen. There must be as
many of them as required. -/
def codedChar? (digits : Nat) (cs : List Char) : Option Char := do
  let ds := cs.take digits
  if ds.length < digits then failure
  let code ← Numeral.inBase? 16 ds
  if code < 0xD800 || (0xDFFF < code && code < 0x110000) then some (Char.ofNat code) else none

/-- The character that a letter after a backslash stands for. -/
def escaped? : Char → Option Char
  | '0' => some '\x00'
  | 'a' => some '\x07'
  | 'b' => some '\x08'
  | 't' => some '\t'
  | '\t' => some '\t'
  | 'n' => some '\n'
  | 'v' => some '\x0b'
  | 'f' => some '\x0c'
  | 'r' => some '\r'
  | 'e' => some '\x1b'
  | ' ' => some ' '
  | '"' => some '"'
  | '\'' => some '\''
  | '\\' => some '\\'
  | 'N' => some '\u0085'
  | '_' => some '\u00a0'
  | 'L' => some '\u2028'
  | 'P' => some '\u2029'
  | _ => none

/-- The number of digits of the code that a letter after a backslash announces. -/
def codeLength? : Char → Option Nat
  | 'x' => some 2
  | 'u' => some 4
  | 'U' => some 8
  | _ => none

/-- The character that an escape stands for, and the number of characters after the backslash that
belong to the escape. -/
def escape? : List Char → Option (Char × Nat)
  | [] => none
  | c :: cs =>
    match codeLength? c with
    | some digits => (codedChar? digits cs).map (·, digits + 1)
    | none => (escaped? c).map (·, 1)

/-- Reads a scalar after the opening quote. `text` is what has been read so far, the last character
first. -/
def readQuoted (quote : Char) (text : List Char) (gap : Gap) (c : Cursor) : Option Lexeme :=
  match _h : c.rest with
  | [] => none
  | x :: rest =>
    let text' := gap.toChars.reverse ++ text
    if c.position.column == 0 && startsDocumentMark c.rest then none
    else if isBreak x then readQuoted quote text gap.addBreak c.skipBreak
    else if isSpace x then readQuoted quote text (gap.addSpace x) c.advance
    else if x == quote then
      if quote == '\'' && rest.head? == some '\'' then
        readQuoted quote ('\'' :: text') .none c.advance.advance
      else some { text := text'.reverse, endsLine := false, cursor := c.advance }
    else if quote == '"' && x == '\\' then
      if (rest.head?.map isBreak).getD false then
        readQuoted quote text' .afterJoin c.advance.skipBreak
      else
        match escape? rest with
        | some (value, length) => readQuoted quote (value :: text') .none (c.skip (length + 1))
        | none => none
    else readQuoted quote (x :: text') .none c.advance
termination_by c.rest.length
decreasing_by
  all_goals
    have hpos : 0 < c.rest.length := by simp [_h]
    have hbreak := c.length_rest_skipBreak_le
    have hjoin := c.advance.length_rest_skipBreak_le
    simp only [Cursor.length_rest_advance, Cursor.length_rest_skip] at *
    omega

end Datacenter.Yaml
