/-!
# Cursors

A place in a text: the characters from there on, and how many characters, lines and columns come
before it. Lines end with a line feed, which a carriage return may precede. A carriage return alone
separates like a line end but does not start a new line.

The modules of this folder and `Datacenter/Settings/Document.lean` are for programs that take their
settings from a file. They are runnable only: no theorem of this library rests on them.
-/

namespace Datacenter.Yaml

/-- The numbers of characters, lines, and columns of the line before a place. -/
structure Position where
  /-- The number of characters. -/
  offset : Nat
  /-- The number of lines. -/
  line : Nat
  /-- The number of columns. -/
  column : Nat
deriving DecidableEq, Repr

namespace Position

/-- The beginning of a text. -/
def start : Position := { offset := 0, line := 0, column := 0 }

/-- The place after a character. -/
def after (p : Position) (c : Char) : Position :=
  if c = '\n' then { offset := p.offset + 1, line := p.line + 1, column := 0 }
  else { p with offset := p.offset + 1, column := p.column + 1 }

end Position

/-- A place in a text. -/
structure Cursor where
  /-- What comes before. -/
  position : Position
  /-- The characters from there on. -/
  rest : List Char

namespace Cursor

/-- The place after the next character. -/
def advance (c : Cursor) : Cursor :=
  match c.rest with
  | [] => c
  | x :: xs => { position := c.position.after x, rest := xs }

/-- The place some characters further on. -/
def skip (c : Cursor) : Nat → Cursor
  | 0 => c
  | n + 1 => c.advance.skip n

/-- The place after a line end, which may be a carriage return with a line feed. -/
def skipBreak (c : Cursor) : Cursor :=
  if c.rest.take 2 = ['\r', '\n'] then c.skip 2 else c.advance

@[simp] theorem length_rest_advance (c : Cursor) : c.advance.rest.length = c.rest.length - 1 := by
  unfold advance
  split <;> simp_all

@[simp] theorem length_rest_skip (c : Cursor) (n : Nat) :
    (c.skip n).rest.length = c.rest.length - n := by
  induction n generalizing c with
  | zero => rfl
  | succ n ih =>
    rw [skip, ih, length_rest_advance]
    omega

theorem length_rest_skipBreak_le (c : Cursor) :
    c.skipBreak.rest.length ≤ c.rest.length - 1 := by
  unfold skipBreak
  split
  · rw [length_rest_skip]
    omega
  · exact Nat.le_of_eq (length_rest_advance c)

end Cursor

/-! ## Classes of characters -/

/-- Whether a character is a space or a tabulator. -/
def isSpace (c : Char) : Bool :=
  c == ' ' || c == '\t'

/-- Whether a character ends a line. -/
def isBreak (c : Char) : Bool :=
  c == '\n' || c == '\r'

/-- Whether a character is a bracket, a brace or a comma, which structure flow collections. -/
def isFlowMark (c : Char) : Bool :=
  c == ',' || c == '[' || c == ']' || c == '{' || c == '}'

/-- Whether a text ends here or goes on with a space or a line end. -/
def startsBlank : List Char → Bool
  | [] => true
  | c :: _ => isSpace c || isBreak c

/-- Whether a text goes on with a mark of a flow collection. -/
def startsFlowMark : List Char → Bool
  | [] => false
  | c :: _ => isFlowMark c

/-- Whether a text goes on with three times the same character and then a blank. -/
def startsTriple (mark : Char) : List Char → Bool
  | a :: b :: c :: rest => a == mark && b == mark && c == mark && startsBlank rest
  | _ => false

/-- Whether a text goes on with the mark for the start or the end of a document. -/
def startsDocumentMark (cs : List Char) : Bool :=
  startsTriple '-' cs || startsTriple '.' cs

end Datacenter.Yaml
