import Datacenter.Yaml.Lexeme

/-!
# Tokens

The tokens of a YAML text. Blocks, which the text marks by indentation only, have tokens for their
beginning and their end, and every key is announced by a token of its own.

## Keys

Whether a scalar or a flow collection is a key is known only when the colon after it is read. So the
lexer remembers the place of the last one that can be a key (`KeyMark`), one for each open flow
collection, and inserts the tokens for the key, and for the beginning of a mapping if that is where
it begins, when the colon comes. A key has to end on the line on which it begins and be at most
`maxKeyLength` characters long.

In a block a key can only begin where `keyAllowed` says so: at the beginning of a line or after the
mark of an item.

## What is read

Block and flow collections, plain and quoted scalars, comments and the marks of documents. Tags,
anchors, aliases, directives, block scalars and keys marked by a question mark are not: a text with
one of them has no tokens.

This is for reading settings from a file (`Datacenter/Yaml/Cursor.lean`); no theorem rests on it.
-/

namespace Datacenter.Yaml

/-- A token. -/
inductive Token where
  /-- The mark before a document. -/
  | documentStart
  /-- The mark after a document. -/
  | documentEnd
  /-- The beginning of a block of items. -/
  | openItems
  /-- The beginning of a block of keys and values. -/
  | openEntries
  /-- The end of a block. -/
  | closeBlock
  /-- The mark of an item. -/
  | item
  /-- What follows is a key. -/
  | key
  /-- What follows is a value. -/
  | value
  /-- An opening bracket. -/
  | openBracket
  /-- A closing bracket. -/
  | closeBracket
  /-- An opening brace. -/
  | openBrace
  /-- A closing brace. -/
  | closeBrace
  /-- A comma in a flow collection. -/
  | comma
  /-- A scalar, and whether it is plain. -/
  | scalar (isPlain : Bool) (text : List Char)
deriving DecidableEq, Repr

/-- The place of what can be a key. -/
structure KeyMark where
  /-- The place in the text. -/
  position : Position
  /-- The number of tokens before. -/
  tokens : Nat
  /-- Whether nothing but a key can stand there. -/
  required : Bool
deriving DecidableEq, Repr

/-- The largest number of characters from the beginning of a key to the colon. -/
def maxKeyLength : Nat := 1024

/-- The largest number of flow collections within each other. -/
def maxDepth : Nat := 255

/-- Whether a key would be too long or go over a line end. -/
def KeyMark.isStale (k : KeyMark) (p : Position) : Bool :=
  k.position.line < p.line || k.position.offset + maxKeyLength < p.offset

/-- What has been read of a text. -/
structure Lexer where
  /-- The place up to which it has been read. -/
  cursor : Cursor
  /-- The tokens, the last one first. -/
  tokens : List Token
  /-- The columns at which the open blocks begin, the innermost one first. -/
  margins : List Nat
  /-- What can be a key, inside of the innermost flow collection. -/
  keyMark : Option KeyMark
  /-- What can be a key around each open flow collection, the innermost one first. -/
  outerMarks : List (Option KeyMark)
  /-- Whether a key can begin here. -/
  keyAllowed : Bool
  /-- The end of the last quoted scalar, after which a colon in a flow collection needs no blank. -/
  quoteEnd : Nat

namespace Lexer

/-- Nothing has been read. -/
def start (text : List Char) : Lexer where
  cursor := { position := .start, rest := text }
  tokens := []
  margins := []
  keyMark := none
  outerMarks := []
  keyAllowed := true
  quoteEnd := 0

/-- Whether a flow collection is open. -/
def inFlow (l : Lexer) : Bool :=
  !l.outerMarks.isEmpty

/-- The column of the place. -/
def column (l : Lexer) : Nat :=
  l.cursor.position.column

/-- Adds a token. -/
def push (t : Token) (l : Lexer) : Lexer :=
  { l with tokens := t :: l.tokens }

/-- Inserts a token after the first `n` ones. -/
def insertAt (n : Nat) (t : Token) (l : Lexer) : Lexer :=
  let later := l.tokens.length - n
  { l with tokens := l.tokens.take later ++ t :: l.tokens.drop later }

/-- Goes some characters further on. -/
def skip (n : Nat) (l : Lexer) : Lexer :=
  { l with cursor := l.cursor.skip n }

/-- Says whether a key can begin here. -/
def allowKey (allowed : Bool) (l : Lexer) : Lexer :=
  { l with keyAllowed := allowed }

/-! ## Blocks -/

/-- Whether the innermost block begins before a column. -/
def isIndented (column : Nat) (l : Lexer) : Bool :=
  match l.margins with
  | [] => true
  | margin :: _ => margin < column

/-- Begins a block at a column that is deeper than the innermost block; its token comes after the
first `n` ones. -/
def openBlock (column n : Nat) (t : Token) (l : Lexer) : Lexer :=
  if l.inFlow || !l.isIndented column then l
  else { l.insertAt n t with margins := column :: l.margins }

/-- Ends the blocks that begin at columns that are to be left. -/
def closeBlocks (leave : Nat → Bool) (l : Lexer) : Lexer :=
  if l.inFlow then l
  else
    { l with
      tokens := List.replicate (l.margins.takeWhile leave).length .closeBlock ++ l.tokens
      margins := l.margins.dropWhile leave }

/-! ## Keys -/

/-- Forgets what could be a key, unless it has to be one. -/
def dropKey (l : Lexer) : Option Lexer :=
  match l.keyMark with
  | some k => if k.required then none else some { l with keyMark := none }
  | none => some l

/-- Remembers that a key may begin here. -/
def markKey (l : Lexer) : Option Lexer :=
  if l.keyAllowed then do
    let l ← l.dropKey
    return { l with
      keyMark := some {
        position := l.cursor.position
        tokens := l.tokens.length
        required := l.inFlow && l.margins.head? == some l.column } }
  else some l

/-- Forgets keys that are stale, unless one of them has to be a key. -/
def dropStale (l : Lexer) : Option Lexer :=
  let stale (k : Option KeyMark) := k.filter (·.isStale l.cursor.position)
  let fresh (k : Option KeyMark) := k.filter (!·.isStale l.cursor.position)
  if (l.keyMark :: l.outerMarks).any fun k => ((stale k).map (·.required)).getD false then none
  else some { l with keyMark := fresh l.keyMark, outerMarks := l.outerMarks.map fresh }

/-! ## Reading tokens -/

/-- Skips blanks, line ends and comments. A tabulator is no blank where a key may begin. -/
def skipBlanks (inFlow keyAllowed : Bool) (p : Position) (inComment : Bool) :
    List Char → Bool × Cursor
  | [] => (keyAllowed, ⟨p, []⟩)
  | c :: rest =>
    if isBreak c then skipBlanks inFlow (keyAllowed || !inFlow) (p.after c) false rest
    else if inComment || c == ' ' || (c == '\t' && (inFlow || !keyAllowed)) then
      skipBlanks inFlow keyAllowed (p.after c) inComment rest
    else if c == '#' then skipBlanks inFlow keyAllowed (p.after c) true rest
    else (keyAllowed, ⟨p, c :: rest⟩)

/-- Goes on to the next token. -/
def toNext (l : Lexer) : Lexer :=
  let (allowed, cursor) :=
    skipBlanks l.inFlow l.keyAllowed l.cursor.position false l.cursor.rest
  { l with cursor := cursor, keyAllowed := allowed }

/-- Reads a mark of a document. -/
def readDocumentMark (t : Token) (l : Lexer) : Option Lexer := do
  let l ← (l.closeBlocks fun _ => true).dropKey
  return ((l.allowKey false).skip 3).push t

/-- Reads an opening bracket or brace. -/
def readOpen (t : Token) (l : Lexer) : Option Lexer := do
  let l ← l.markKey
  if maxDepth ≤ l.outerMarks.length then failure
  let l := { l with keyMark := none, outerMarks := l.keyMark :: l.outerMarks }
  return ((l.allowKey true).skip 1).push t

/-- Reads a closing bracket or brace. -/
def readClose (t : Token) (l : Lexer) : Option Lexer := do
  let l ← l.dropKey
  let l := match l.outerMarks with
    | [] => l
    | k :: ks => { l with keyMark := k, outerMarks := ks }
  return ((l.allowKey false).skip 1).push t

/-- Reads a comma. -/
def readComma (l : Lexer) : Option Lexer := do
  let l ← l.dropKey
  return ((l.allowKey true).skip 1).push .comma

/-- Reads the mark of an item, which can only stand in a block. -/
def readItem (l : Lexer) : Option Lexer := do
  if l.inFlow || !l.keyAllowed then failure
  let l ← (l.openBlock l.column l.tokens.length .openItems).dropKey
  return ((l.allowKey true).skip 1).push .item

/-- Reads a colon. -/
def readValue (l : Lexer) : Option Lexer := do
  match l.keyMark with
  | some k =>
    let l := (l.insertAt k.tokens .key).openBlock k.position.column k.tokens .openEntries
    return (({ l with keyMark := none }.allowKey false).skip 1).push .value
  | none =>
    if l.inFlow then return ((l.allowKey false).skip 1).push .value
    if !l.keyAllowed then failure
    let l := l.openBlock l.column l.tokens.length .openEntries
    return ((l.allowKey true).skip 1).push .value

/-- Reads a quoted scalar. -/
def readQuotedScalar (quote : Char) (l : Lexer) : Option Lexer := do
  let l ← l.markKey
  let lexeme ← readQuoted quote [] .none l.cursor.advance
  return ({ l with cursor := lexeme.cursor, quoteEnd := lexeme.cursor.position.offset }.allowKey
    false).push (.scalar false lexeme.text)

/-- Reads a plain scalar. -/
def readPlainScalar (l : Lexer) : Option Lexer := do
  let l ← l.markKey
  let margin := match l.margins with
    | [] => 0
    | margin :: _ => margin + 1
  let lexeme ← readPlain l.inFlow margin [] .none l.cursor.position l.cursor.rest
  return ({ l with cursor := lexeme.cursor }.allowKey lexeme.endsLine).push
    (.scalar true lexeme.text)

/-- Whether a colon at the place announces a value. -/
def isValueMark (l : Lexer) (rest : List Char) : Bool :=
  startsBlank rest ||
    (l.inFlow && (startsFlowMark rest || l.cursor.position.offset == l.quoteEnd))

/-- Reads the token at the place, which begins with a character. -/
def readToken (l : Lexer) (c : Char) (rest : List Char) : Option Lexer :=
  if l.column == 0 && startsTriple '-' (c :: rest) then l.readDocumentMark .documentStart
  else if l.column == 0 && startsTriple '.' (c :: rest) then l.readDocumentMark .documentEnd
  else match c with
    | '[' => l.readOpen .openBracket
    | '{' => l.readOpen .openBrace
    | ']' => l.readClose .closeBracket
    | '}' => l.readClose .closeBrace
    | ',' => l.readComma
    | '\'' => l.readQuotedScalar c
    | '"' => l.readQuotedScalar c
    | '-' => if startsBlank rest then l.readItem else l.readPlainScalar
    | ':' => if l.isValueMark rest then l.readValue else l.readPlainScalar
    | '?' => if startsBlank rest then none else l.readPlainScalar
    | '|' => if l.inFlow then l.readPlainScalar else none
    | '>' => if l.inFlow then l.readPlainScalar else none
    | '*' => none
    | '&' => none
    | '!' => none
    | '%' => none
    | '@' => none
    | '\x60' => none
    | _ => l.readPlainScalar

/-- Goes on to the next token; blocks that begin further to the right end before it. -/
def approach (l : Lexer) : Option Lexer := do
  let l ← l.toNext.dropStale
  return l.closeBlocks (l.column < ·)

/-- The tokens of a text that has been read to its end. -/
def finish (l : Lexer) : Option (List Token) := do
  let l ← (l.closeBlocks fun _ => true).dropKey
  return l.tokens.reverse

/-- Reads all tokens. Every token takes at least one character. -/
def readAll (l : Lexer) : Option (List Token) := do
  let here ← l.approach
  match here.cursor.rest with
  | [] => here.finish
  | c :: rest =>
    let next ← here.readToken c rest
    if _h : next.cursor.rest.length < l.cursor.rest.length then next.readAll else failure
termination_by l.cursor.rest.length

end Lexer

/-- The tokens of a text. A text ends at its first null character. -/
def Token.ofChars? (text : List Char) : Option (List Token) :=
  (Lexer.start (text.takeWhile (· != '\x00'))).readAll

end Datacenter.Yaml
