import Datacenter.Yaml.Token

/-!
# Nodes

The value of a YAML document is a node: a scalar, a sequence, or a mapping with its entries in the
order of the text. Where a node is left out, the scalar `~` stands for it.

The functions that read nodes consume the tokens in order. Between two tokens at most a few of them
call each other, so four calls for each token bound their depth (`Node.ofTokens?`).

This is for reading settings from a file (`Datacenter/Yaml/Cursor.lean`); no theorem rests on it.
-/

namespace Datacenter.Yaml

/-- The value of a document or a part of it. -/
inductive Node where
  /-- A scalar, and whether it is plain. -/
  | scalar (isPlain : Bool) (text : List Char)
  /-- Items in order. -/
  | sequence (items : List Node)
  /-- Keys and values in order. -/
  | mapping (entries : List (Node × Node))

namespace Node

/-- The node that stands where there is none. -/
def empty : Node := .scalar true ['~']

/-- Whether a token ends what could be a node of a block entry or item. -/
def endsEntry : Token → Bool
  | .key => true
  | .value => true
  | .closeBlock => true
  | _ => false

/-- Whether the next token is one of some kinds. -/
def follows (kinds : Token → Bool) (ts : List Token) : Bool :=
  (ts.head?.map kinds).getD false

mutual

/-- Reads a node. Blocks, and items that are not indented, can only begin where they are allowed. -/
def read (inBlock unindented : Bool) (fuel : Nat) (ts : List Token) : Option (Node × List Token) :=
  match fuel with
  | 0 => none
  | fuel + 1 =>
    match ts with
    | .scalar isPlain text :: ts => some (.scalar isPlain text, ts)
    | .openBracket :: ts =>
      (readFlowItems true fuel ts).map fun (items, ts) => (.sequence items, ts)
    | .openBrace :: ts =>
      (readFlowEntries true fuel ts).map fun (es, ts) => (.mapping es, ts)
    | .openItems :: ts =>
      if inBlock then (readItems fuel ts).map fun (items, ts) => (.sequence items, ts) else none
    | .openEntries :: ts =>
      if inBlock then (readEntries fuel ts).map fun (es, ts) => (.mapping es, ts) else none
    | .item :: _ =>
      if unindented then (readUnindented fuel ts).map fun (items, ts) => (.sequence items, ts)
      else none
    | _ => none

/-- Reads a node, unless a token of some kinds follows; then there is none. -/
def readUnless (kinds : Token → Bool) (inBlock unindented : Bool) (fuel : Nat) (ts : List Token) :
    Option (Node × List Token) :=
  match fuel with
  | 0 => none
  | fuel + 1 => if follows kinds ts then some (empty, ts) else read inBlock unindented fuel ts

/-- Reads the items of a block up to its end. -/
def readItems (fuel : Nat) (ts : List Token) : Option (List Node × List Token) :=
  match fuel with
  | 0 => none
  | fuel + 1 =>
    match ts with
    | .closeBlock :: ts => some ([], ts)
    | .item :: ts => do
      let (item, ts) ← readUnless (fun t => t == .item || t == .closeBlock) true false fuel ts
      let (items, ts) ← readItems fuel ts
      return (item :: items, ts)
    | _ => none

/-- Reads items that are not indented, up to the first token that is none. -/
def readUnindented (fuel : Nat) (ts : List Token) : Option (List Node × List Token) :=
  match fuel with
  | 0 => none
  | fuel + 1 =>
    match ts with
    | .item :: ts => do
      let (item, ts) ← readUnless (fun t => t == .item || endsEntry t) true false fuel ts
      let (items, ts) ← readUnindented fuel ts
      return (item :: items, ts)
    | ts => some ([], ts)

/-- Reads the entries of a block up to its end. A key or a value may be left out. -/
def readEntries (fuel : Nat) (ts : List Token) : Option (List (Node × Node) × List Token) :=
  match fuel with
  | 0 => none
  | fuel + 1 =>
    match ts with
    | .closeBlock :: ts => some ([], ts)
    | .key :: ts => do
      let (key, ts) ← readUnless endsEntry true true fuel ts
      let (value, ts) ← readValue fuel ts
      let (entries, ts) ← readEntries fuel ts
      return ((key, value) :: entries, ts)
    | .value :: _ => do
      let (value, ts) ← readValue fuel ts
      let (entries, ts) ← readEntries fuel ts
      return ((empty, value) :: entries, ts)
    | _ => none

/-- Reads the value of a block entry. -/
def readValue (fuel : Nat) (ts : List Token) : Option (Node × List Token) :=
  match fuel with
  | 0 => none
  | fuel + 1 =>
    match ts with
    | .value :: ts => readUnless endsEntry true true fuel ts
    | ts => some (empty, ts)

/-- Reads the items of a flow sequence up to its end. An item may be a single entry of a mapping. -/
def readFlowItems (isFirst : Bool) (fuel : Nat) (ts : List Token) :
    Option (List Node × List Token) :=
  match fuel with
  | 0 => none
  | fuel + 1 => do
    if follows (· == .closeBracket) ts then return ([], ts.tail)
    if !isFirst && !follows (· == .comma) ts then failure
    let ts := if isFirst then ts else ts.tail
    match ts with
    | .closeBracket :: ts => return ([], ts)
    | .key :: ts => do
      let (key, ts) ← read false false fuel ts
      let (value, ts) ← readFlowValue (fun t => t == .comma || t == .closeBracket) fuel ts
      let (items, ts) ← readFlowItems false fuel ts
      return (.mapping [(key, value)] :: items, ts)
    | ts => do
      let (item, ts) ← read false false fuel ts
      let (items, ts) ← readFlowItems false fuel ts
      return (item :: items, ts)

/-- Reads the entries of a flow mapping up to its end. -/
def readFlowEntries (isFirst : Bool) (fuel : Nat) (ts : List Token) :
    Option (List (Node × Node) × List Token) :=
  match fuel with
  | 0 => none
  | fuel + 1 => do
    if follows (· == .closeBrace) ts then return ([], ts.tail)
    if !isFirst && !follows (· == .comma) ts then failure
    let ts := if isFirst then ts else ts.tail
    let ends (t : Token) := t == .comma || t == .closeBrace
    match ts with
    | .closeBrace :: ts => return ([], ts)
    | .key :: ts => do
      let (key, ts) ← readUnless (fun t => t == .value || ends t) false false fuel ts
      let (value, ts) ← readFlowValue ends fuel ts
      let (entries, ts) ← readFlowEntries false fuel ts
      return ((key, value) :: entries, ts)
    | .value :: _ => do
      let (value, ts) ← readFlowValue ends fuel ts
      let (entries, ts) ← readFlowEntries false fuel ts
      return ((empty, value) :: entries, ts)
    | ts => do
      let (key, ts) ← read false false fuel ts
      let (entries, ts) ← readFlowEntries false fuel ts
      return ((key, empty) :: entries, ts)

/-- Reads the value of a flow entry. -/
def readFlowValue (ends : Token → Bool) (fuel : Nat) (ts : List Token) :
    Option (Node × List Token) :=
  match fuel with
  | 0 => none
  | fuel + 1 =>
    match ts with
    | .value :: ts => readUnless ends false false fuel ts
    | ts => some (empty, ts)

end

/-- The value of the only document that tokens make up. -/
def ofTokens? (ts : List Token) : Option Node := do
  let content := match ts with
    | .documentStart :: ts => ts
    | ts => ts
  let (node, rest) ← read true false (4 * ts.length + 4) content
  if rest.all (· == .documentEnd) then some node else none

/-- The value of the only document of a text. -/
def ofChars? (text : List Char) : Option Node := do
  ofTokens? (← Token.ofChars? text)

end Node

end Datacenter.Yaml
