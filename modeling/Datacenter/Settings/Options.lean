import Datacenter.Settings.Error
import Datacenter.Text.Blank
import Datacenter.Text.Numeral
import Datacenter.Text.Pieces

/-!
# Names with options

Settings designate policies and disciplines by a name, which options in brackets may follow:
`StaticThreshold[over=0.8,under=0.2]`. Texts are lists of characters here.

## The form

A designation is cut at its first opening bracket. What comes before is the name; what comes after,
without any closing brackets, is the text of the options. Brackets are not matched, so a designation
can be the value of an option of another one.

The text of the options is cut at the commas. Every piece that is not blank is an option: its name
and its value are the parts before and after the first equals sign. Blanks around names, values and
pieces do not count. Of several values for a name the last one holds.
-/

namespace Datacenter

/-- A name and the text of its options, if any are written. -/
structure Designation where
  /-- The name. -/
  name : List Char
  /-- The text between the brackets. -/
  optionText : Option (List Char)
deriving DecidableEq, Repr

namespace Designation

/-- Reads a designation. -/
def ofChars (text : List Char) : Designation :=
  let trimmed := Text.trim text
  match Text.splitFirst '[' trimmed with
  | some (name, rest) => { name := Text.trim name, optionText := some (rest.filter (· != ']')) }
  | none => { name := trimmed, optionText := none }

theorem length_optionText_lt {text raw : List Char} (h : (ofChars text).optionText = some raw) :
    raw.length < text.length := by
  simp only [ofChars] at h
  split at h
  · rename_i name rest heq
    cases h
    have hsplit := congrArg List.length (Text.splitFirst_eq_some heq)
    have htrim := Text.length_trim_le text
    have hfilter := List.length_filter_le (fun c => c != ']') rest
    rw [List.length_append, List.length_cons] at hsplit
    omega
  · cases h

end Designation

/-- Options: names with values, each name at most once. -/
abbrev Options := List (List Char × List Char)

namespace Options

variable {α : Type}

/-- The value of an option. -/
def find? (options : Options) (name : List Char) : Option (List Char) :=
  (List.find? (fun o => o.1 == name) options).map Prod.snd

/-- Gives an option a value, in place of the value it may have. -/
def insert (name value : List Char) : Options → Options
  | [] => [(name, value)]
  | o :: os => if o.1 = name then (name, value) :: os else o :: insert name value os

/-- Reads one option, from a piece without blanks around it. -/
def readOption (piece : List Char) : Except (SettingsError α) (List Char × List Char) :=
  match Text.splitFirst '=' piece with
  | some (name, value) => .ok (Text.trim name, Text.trim value)
  | none => .error (.badOption (String.ofList piece) "")

/-- Reads pieces one after the other into options. -/
def readPieces : List (List Char) → Options → Except (SettingsError α) Options
  | [], options => .ok options
  | piece :: rest, options => do
    let (name, value) ← readOption piece
    readPieces rest (insert name value options)

/-- The pieces of a text of options that are not blank, without blanks around them. -/
def piecesOf (text : List Char) : List (List Char) :=
  ((Text.pieces ',' text).map Text.trim).filter (!·.isEmpty)

/-- Reads the text of options. -/
def ofChars (text : List Char) : Except (SettingsError α) Options :=
  readPieces (piecesOf text) []

/-- The options of a designation; none if none are written. -/
def ofDesignation (d : Designation) : Except (SettingsError α) Options :=
  match d.optionText with
  | some text => ofChars text
  | none => .ok []

/-! ## Using options -/

/-- The option with the first name, in the order of names, among those whose name is not known. -/
def firstUnknown (known : List String) (options : Options) : Option (List Char × List Char) :=
  (options.filter fun o => !known.contains (String.ofList o.1)).foldl
    (fun first o => match first with
      | none => some o
      | some f => if o.1 < f.1 then some o else some f) none

/-- Requires that all options are known. -/
def check (options : Options) (known : List String) : Except (SettingsError α) Unit :=
  match firstUnknown known options with
  | some (name, value) => .error (.badOption (String.ofList name) (String.ofList value))
  | none => .ok ()

/-- The value of an option as `read?` reads it, or the default if the option is absent. -/
def getD {β : Type} (options : Options) (name : String) (read? : List Char → Option β)
    (default : β) : Except (SettingsError α) β :=
  match options.find? name.toList with
  | none => .ok default
  | some value =>
    match read? value with
    | some b => .ok b
    | none => .error (.badOption name (String.ofList value))

/-- Reads a natural number of at most sixty-four bits. -/
def readSize? (value : List Char) : Option Nat :=
  (Numeral.natural? value).filter (· < UInt64.size)

/-- Reads a number. -/
def readScalar? [TextScalar α] (value : List Char) : Option α :=
  TextScalar.ofText? (String.ofList value)

/-! ## Options are shorter than their text -/

theorem mem_insert {name value : List Char} {o : List Char × List Char} :
    ∀ {options : Options}, o ∈ insert name value options → o = (name, value) ∨ o ∈ options
  | [], h => by simpa [insert] using h
  | p :: ps, h => by
    unfold insert at h
    split at h
    · rcases List.mem_cons.mp h with h | h
      · exact .inl h
      · exact .inr (List.mem_cons_of_mem _ h)
    · rcases List.mem_cons.mp h with h | h
      · exact .inr (h ▸ List.mem_cons_self)
      · rcases mem_insert h with h | h
        · exact .inl h
        · exact .inr (List.mem_cons_of_mem _ h)

theorem length_value_lt_of_readOption {piece name value : List Char}
    (h : readOption (α := α) piece = .ok (name, value)) : value.length < piece.length := by
  unfold readOption at h
  split at h
  · rename_i n v heq
    cases h
    have hsplit := congrArg List.length (Text.splitFirst_eq_some heq)
    have htrim := Text.length_trim_le v
    rw [List.length_append, List.length_cons] at hsplit
    omega
  · cases h

theorem length_value_le_of_readPieces {n : Nat} :
    ∀ {pieces : List (List Char)} {start options : Options},
      readPieces (α := α) pieces start = .ok options →
      (∀ p ∈ pieces, p.length ≤ n) → (∀ o ∈ start, o.2.length ≤ n) →
      ∀ o ∈ options, o.2.length ≤ n
  | [], _, _, h, _, hstart => by cases h; exact hstart
  | piece :: rest, start, options, h, hpieces, hstart => by
    unfold readPieces at h
    cases hread : readOption (α := α) piece with
    | error e => rw [hread] at h; cases h
    | ok nv =>
      rw [hread] at h
      have hrest : readPieces (α := α) rest (insert nv.1 nv.2 start) = .ok options := h
      refine length_value_le_of_readPieces hrest
        (fun p hp => hpieces p (List.mem_cons_of_mem _ hp)) fun o ho => ?_
      rcases mem_insert ho with ho | ho
      · have := length_value_lt_of_readOption (α := α) hread
        have := hpieces piece List.mem_cons_self
        have heq : o.2 = nv.2 := congrArg Prod.snd ho
        rw [heq]
        omega
      · exact hstart o ho

theorem length_value_le_of_ofChars {text : List Char} {options : Options}
    (h : ofChars (α := α) text = .ok options) : ∀ o ∈ options, o.2.length ≤ text.length := by
  refine length_value_le_of_readPieces h (fun p hp => ?_) (by simp)
  obtain ⟨q, hq, rfl⟩ := List.mem_map.mp (List.mem_filter.mp hp).1
  exact Nat.le_trans (Text.length_trim_le q) (Text.length_le_of_mem_pieces hq)

/-- The value of an option of a designation is shorter than the designation. -/
theorem length_value_lt {text name value : List Char} {options : Options}
    (h : ofDesignation (α := α) (.ofChars text) = .ok options)
    (hv : options.find? name = some value) : value.length < text.length := by
  unfold find? at hv
  obtain ⟨o, ho, rfl⟩ := Option.map_eq_some_iff.mp hv
  have hmem := List.mem_of_find?_eq_some ho
  unfold ofDesignation at h
  split at h
  · rename_i raw hraw
    exact Nat.lt_of_le_of_lt (length_value_le_of_ofChars h o hmem)
      (Designation.length_optionText_lt hraw)
  · cases h
    cases hmem

end Options

end Datacenter
