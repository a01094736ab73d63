import Mathlib.Data.List.Forall2
import Mathlib.Data.List.Nodup
import Mathlib.Data.Rat.Init
import Datacenter.Proofs.Fault
import Datacenter.Proofs.Text.Cutting
import Datacenter.Settings.Options

/-!
# Written designations

A name can be written with options in brackets behind it, in any order and with blanks around the
name, around every name and value of an option and around the whole text (`Designation.Writes`).
Reading such a text gives back the name and the options.

The marks of the form are an opening bracket, equals signs, commas and a closing bracket. Each of
them is looked for in a part of the text where it cannot occur before the place it was written at:
the first opening bracket is the one behind the name, since the name has none, though an option may;
the first equals sign of a piece is the one behind the name of the option, though its value may have
more of them; commas and closing brackets occur nowhere else. None of the marks is a blank, so the
blanks that were written are trimmed before and after cutting, wherever they are
(`Text.trim_append_cons`).
-/

namespace Datacenter

/-- The text without its closing brackets. -/
def unclosed (cs : List Char) : List Char :=
  cs.filter (· != ']')

@[simp] theorem unclosed_append (cs ds : List Char) :
    unclosed (cs ++ ds) = unclosed cs ++ unclosed ds :=
  List.filter_append ..

@[simp] theorem unclosed_unclosed (cs : List Char) : unclosed (unclosed cs) = unclosed cs := by
  rw [unclosed, unclosed, List.filter_filter]
  simp only [Bool.and_self]

@[simp] theorem unclosed_append_close (cs : List Char) : unclosed (cs ++ [']']) = unclosed cs := by
  rw [unclosed_append]
  exact List.append_nil _

theorem unclosed_eq_self {cs : List Char} (hcs : ']' ∉ cs) : unclosed cs = cs :=
  List.filter_eq_self.mpr fun _ hc => bne_iff_ne.mpr fun h => hcs (h ▸ hc)

namespace Designation

theorem ofChars_of_padded {inner text : List Char} (h : Text.Padded inner text) :
    ofChars text = ofChars inner := by
  rw [ofChars, h.trim_eq, ofChars]

/-- A designation with brackets is cut at the first opening one, and all closing ones are lost. -/
theorem ofChars_append_open {name : List Char} (hopen : '[' ∉ name) (rest : List Char) :
    ofChars (name ++ '[' :: rest)
      = { name := Text.trim name, optionText := some (unclosed (Text.trimBack rest)) } := by
  have htrim : Text.trim (name ++ '[' :: rest) = Text.trimFront name ++ '[' :: Text.trimBack rest :=
    Text.trim_append_cons (by decide) name rest
  simp only [ofChars, htrim, Text.splitFirst_append (Text.not_mem_trimFront hopen),
    Text.trim_trimFront, unclosed]

end Designation

namespace Options

variable {α : Type} {options other written : Options} {name value piece : List Char}
  {o : List Char × List Char}

/-! ## Options with different names -/

theorem insert_of_not_mem (hname : name ∉ options.map Prod.fst) :
    insert name value options = options ++ [(name, value)] := by
  induction options with
  | nil => rfl
  | cons o os ih =>
    rw [List.map_cons, List.mem_cons, not_or] at hname
    rw [insert, if_neg (Ne.symm hname.1), ih hname.2, List.cons_append]

theorem find?_eq_some_iff (hdistinct : (options.map Prod.fst).Nodup) :
    options.find? name = some value ↔ (name, value) ∈ options := by
  induction options with
  | nil => simp [find?]
  | cons o os ih =>
    obtain ⟨hfirst, hrest⟩ := List.nodup_cons.mp hdistinct
    by_cases hname : o.1 = name
    · subst hname
      have hnot : (o.1, value) ∉ os := fun hmem => hfirst (List.mem_map.mpr ⟨_, hmem, rfl⟩)
      simp [find?, hnot, Prod.ext_iff, eq_comm]
    · have hskip : find? (o :: os) name = find? os name := by simp [find?, hname]
      rw [hskip, ih hrest, List.mem_cons, or_iff_right]
      exact fun heq => hname (congrArg Prod.fst heq).symm

/-- Options with different names are the same in any order. -/
theorem find?_eq_of_perm (hdistinct : (options.map Prod.fst).Nodup) (h : other.Perm options)
    (name : List Char) : other.find? name = options.find? name := by
  have hdistinct' : (other.map Prod.fst).Nodup := (h.map Prod.fst).nodup_iff.mpr hdistinct
  ext value
  rw [find?_eq_some_iff hdistinct, find?_eq_some_iff hdistinct', h.mem_iff]

/-! ## Writing options -/

/-- What may be written for an option: its name and its value with blanks around them, and an equals
sign in between. -/
def Writes (o : List Char × List Char) (piece : List Char) : Prop :=
  ∃ name value, Text.Padded o.1 name ∧ Text.Padded o.2 value ∧ piece = name ++ '=' :: value

/-- An option that can be written. Its name and its value begin and end with no blanks, and they have
no marks at which the text is cut before they are reached. -/
structure IsWritable (o : List Char × List Char) : Prop where
  name_trimmed : Text.trim o.1 = o.1
  value_trimmed : Text.trim o.2 = o.2
  name_marks : '=' ∉ o.1 ∧ ',' ∉ o.1 ∧ ']' ∉ o.1
  value_marks : ',' ∉ o.2 ∧ ']' ∉ o.2

theorem Writes.not_mem {c : Char} (h : Writes o piece) (hblank : Text.isBlank c = false)
    (hequals : c ≠ '=') (hname : c ∉ o.1) (hvalue : c ∉ o.2) : c ∉ piece := by
  obtain ⟨name, value, hpadded, hpadded', rfl⟩ := h
  rw [List.mem_append, List.mem_cons, not_or, not_or]
  exact ⟨hpadded.not_mem hblank hname, hequals, hpadded'.not_mem hblank hvalue⟩

/-- A written option is read back once the blanks around it have been trimmed. -/
theorem Writes.readOption_trim (h : Writes o piece) (ho : IsWritable o) :
    readOption (α := α) (Text.trim piece) = .ok o := by
  obtain ⟨name, value, hname, hvalue, rfl⟩ := h
  have hequals : '=' ∉ name := hname.not_mem (by decide) ho.name_marks.1
  rw [Text.trim_append_cons (by decide), readOption,
    Text.splitFirst_append (Text.not_mem_trimFront hequals)]
  dsimp only
  rw [Text.trim_trimFront, Text.trim_trimBack, hname.trim_eq, hvalue.trim_eq, ho.name_trimmed,
    ho.value_trimmed]

theorem readPieces_eq_ok {pieces : List (List Char)} {start : Options}
    (h : List.Forall₂ (fun o piece => readOption (α := α) piece = .ok o) options pieces)
    (hdistinct : ((start ++ options).map Prod.fst).Nodup) :
    readPieces (α := α) pieces start = .ok (start ++ options) := by
  induction h generalizing start with
  | nil => rw [readPieces, List.append_nil]
  | @cons o piece options pieces ho _ ih =>
    have hnew : o.1 ∉ start.map Prod.fst := by
      rw [List.map_append, List.map_cons] at hdistinct
      exact fun hmem => (List.nodup_append.mp hdistinct).2.2 _ hmem _ List.mem_cons_self rfl
    rw [readPieces, ho]
    show readPieces pieces (insert o.1 o.2 start) = _
    rw [insert_of_not_mem hnew, ih (by simpa using hdistinct)]
    simp

/-- Every piece is written for one of the options. -/
theorem exists_writes {pieces : List (List Char)} (h : List.Forall₂ Writes written pieces)
    (hpiece : piece ∈ pieces) : ∃ o ∈ written, Writes o piece := by
  induction h with
  | nil => contradiction
  | cons ho _ ih =>
    rcases List.mem_cons.mp hpiece with rfl | hpiece
    · exact ⟨_, List.mem_cons_self, ho⟩
    · obtain ⟨o, hmem, ho⟩ := ih hpiece
      exact ⟨o, List.mem_cons_of_mem _ hmem, ho⟩

/-- A mark that no piece has is in no text joined of them by commas. -/
theorem not_mem_intercalate {c : Char} (hcomma : c ≠ ',') {pieces : List (List Char)}
    (h : ∀ piece ∈ pieces, c ∉ piece) : c ∉ [','].intercalate pieces := by
  induction pieces with
  | nil => simp
  | cons piece pieces ih =>
    obtain ⟨hpiece, hpieces⟩ := List.forall_mem_cons.mp h
    cases pieces with
    | nil => simpa using hpiece
    | cons next rest =>
      have hrest := ih hpieces
      rw [List.intercalate_cons_cons]
      simp [hpiece, hcomma, hrest]

/-- Written options are read back. -/
theorem ofChars_intercalate {pieces : List (List Char)} (hwritten : ∀ o ∈ written, IsWritable o)
    (hdistinct : (written.map Prod.fst).Nodup) (h : List.Forall₂ Writes written pieces) :
    ofChars (α := α) ([','].intercalate pieces) = .ok written := by
  have hpieces : piecesOf ([','].intercalate pieces) = pieces.map Text.trim := by
    rcases eq_or_ne pieces [] with rfl | hne
    · rfl
    have hcomma : ∀ piece ∈ pieces, ',' ∉ piece := fun piece hpiece => by
      obtain ⟨o, ho, hwrites⟩ := exists_writes h hpiece
      exact hwrites.not_mem (by decide) (by decide) (hwritten o ho).name_marks.2.1
        (hwritten o ho).value_marks.1
    have hfilled : ∀ piece ∈ pieces, Text.trim piece ≠ [] := fun piece hpiece hnil => by
      obtain ⟨o, -, name, value, -, -, rfl⟩ := exists_writes h hpiece
      exact absurd (Text.trim_eq_nil_iff.mp hnil '=' (by simp)) (by decide)
    rw [piecesOf, Text.pieces_eq_splitOn, List.splitOn_intercalate ',' hcomma hne,
      List.filter_eq_self]
    simpa using hfilled
  have hread : List.Forall₂ (fun o piece => readOption (α := α) piece = .ok o) written
      (pieces.map Text.trim) :=
    List.forall₂_map_right_iff.mpr <|
      ((List.forall₂_and_left _ _).mpr ⟨hwritten, h⟩).imp fun _ _ ho => ho.2.readOption_trim ho.1
  rw [ofChars, hpieces, readPieces_eq_ok hread (by simpa using hdistinct), List.nil_append]

/-! ## Parts that are no options -/

/-- A part of a text that is neither blank nor an option. -/
def IsStray (part : List Char) : Prop :=
  ¬ Text.Blank part ∧ '=' ∉ part

instance (part : List Char) : Decidable (IsStray part) :=
  inferInstanceAs (Decidable (¬ Text.Blank part ∧ '=' ∉ part))

theorem readOption_eq_error_iff {e : SettingsError α} :
    readOption piece = .error e ↔ '=' ∉ piece ∧ e = .badOption (String.ofList piece) "" := by
  unfold readOption
  split
  case h_1 name value hsplit =>
    rw [Text.splitFirst_eq_some hsplit]
    simp
  case h_2 hnone =>
    have hequals : '=' ∉ piece := fun hmem => by
      obtain ⟨before, after, rfl, hbefore⟩ := List.eq_append_cons_of_mem hmem
      rw [Text.splitFirst_append hbefore] at hnone
      contradiction
    simp [hequals, eq_comm]

/-- Reading stops at the first piece without an equals sign. -/
theorem readPieces_eq_error_iff {pieces : List (List Char)} {start : Options}
    {e : SettingsError α} :
    readPieces pieces start = .error e
      ↔ ∃ piece, pieces.find? (fun piece => '=' ∉ piece) = some piece
        ∧ e = .badOption (String.ofList piece) "" := by
  induction pieces generalizing start with
  | nil => simp [readPieces]
  | cons piece pieces ih =>
    rw [readPieces]
    cases hread : readOption (α := α) piece with
    | error e' =>
      obtain ⟨hequals, rfl⟩ := readOption_eq_error_iff.mp hread
      rw [List.find?_cons_of_pos (by simpa using hequals)]
      simp [bind, Except.bind, eq_comm]
    | ok o =>
      have hequals : '=' ∈ piece := by
        by_contra hnone
        have herror := (readOption_eq_error_iff (α := α)).mpr ⟨hnone, rfl⟩
        rw [hread] at herror
        contradiction
      rw [List.find?_cons_of_neg (by simpa using hequals)]
      exact ih

/-- Reading the text of options fails at the first stray part, and with its text for an error. -/
theorem ofChars_eq_error_iff {raw : List Char} {e : SettingsError α} :
    ofChars raw = .error e
      ↔ ∃ part, (raw.splitOn ',').find? (fun part => IsStray part) = some part
        ∧ e = .badOption (String.ofList (Text.trim part)) "" := by
  have hstray : ((fun piece => decide ((!piece.isEmpty) = true ∧ decide ('=' ∉ piece) = true))
      ∘ Text.trim) = fun part => decide (IsStray part) := by
    funext part
    have hequals : '=' ∈ Text.trim part ↔ '=' ∈ part := Text.mem_trim_iff (by decide)
    rw [Bool.eq_iff_iff, decide_eq_true_iff (p := IsStray part), IsStray]
    simp [Text.trim_eq_nil_iff, hequals]
  rw [ofChars, readPieces_eq_error_iff, piecesOf, List.find?_filter, List.find?_map, hstray,
    Text.pieces_eq_splitOn]
  simp [Option.map_eq_some_iff]

/-- Reading the text of options fails exactly if one of its parts is stray. -/
theorem exists_ofChars_eq_error_iff {raw : List Char} :
    (∃ e, ofChars (α := α) raw = .error e) ↔ ∃ part ∈ raw.splitOn ',', IsStray part := by
  constructor
  · rintro ⟨e, he⟩
    obtain ⟨part, hpart, -⟩ := ofChars_eq_error_iff.mp he
    exact ⟨part, List.mem_of_find?_eq_some hpart, by simpa using List.find?_some hpart⟩
  · rintro ⟨part, hmem, hstray⟩
    have hsome : ((raw.splitOn ',').find? fun part => IsStray part).isSome = true :=
      List.find?_isSome.mpr ⟨part, hmem, decide_eq_true hstray⟩
    obtain ⟨first, hfirst⟩ := Option.isSome_iff_exists.mp hsome
    exact ⟨_, ofChars_eq_error_iff.mpr ⟨first, hfirst, rfl⟩⟩

end Options

/-! ## Writing designations -/

namespace Designation

variable {α : Type} {name text : List Char} {options : Options}

/-- A name with options that can be written. The name begins and ends with no blanks and has no
opening bracket, and no two options have the same name. -/
structure IsWritable (name : List Char) (options : Options) : Prop where
  name_trimmed : Text.trim name = name
  name_mark : '[' ∉ name
  options_writable : ∀ o ∈ options, Options.IsWritable o
  distinct : (options.map Prod.fst).Nodup

/-- What may be written for a name with options: the name, and in brackets the options in any order
with commas in between. There may be blanks around everything. -/
def Writes (name : List Char) (options : Options) (text : List Char) : Prop :=
  ∃ written nameText pieces, written.Perm options ∧ Text.Padded name nameText
    ∧ List.Forall₂ Options.Writes written pieces
    ∧ Text.Padded (nameText ++ '[' :: ([','].intercalate pieces ++ [']'])) text

/-- A written designation is cut into its name and the text of its options. -/
theorem ofChars_of_padded_brackets {nameText inner : List Char} (hname : Text.Padded name nameText)
    (hopen : '[' ∉ name) (hclose : ']' ∉ inner)
    (htext : Text.Padded (nameText ++ '[' :: (inner ++ [']'])) text) :
    ofChars text = { name := Text.trim name, optionText := some inner } := by
  have hback : Text.trimBack (inner ++ [']']) = inner ++ [']'] :=
    Text.trimBack_append_cons (by decide) inner []
  rw [ofChars_of_padded htext, ofChars_append_open (hname.not_mem (by decide) hopen),
    hname.trim_eq, hback, unclosed_append_close, unclosed_eq_self hclose]

/-- A written designation is read back: its name, and the options as they are written. -/
theorem ofDesignation_of_writes (hwritable : IsWritable name options)
    (h : Writes name options text) :
    (ofChars text).name = name
      ∧ ∃ read, Options.ofDesignation (α := α) (ofChars text) = .ok read ∧ read.Perm options := by
  obtain ⟨written, nameText, pieces, hperm, hname, hpieces, htext⟩ := h
  have hoptions : ∀ o ∈ written, Options.IsWritable o := fun o ho =>
    hwritable.options_writable o (hperm.mem_iff.mp ho)
  have hclose : ']' ∉ [','].intercalate pieces :=
    Options.not_mem_intercalate (by decide) fun piece hpiece => by
      obtain ⟨o, ho, hwrites⟩ := Options.exists_writes hpieces hpiece
      exact hwrites.not_mem (by decide) (by decide) (hoptions o ho).name_marks.2.2
        (hoptions o ho).value_marks.2
  have hdistinct : (written.map Prod.fst).Nodup :=
    (hperm.map Prod.fst).nodup_iff.mpr hwritable.distinct
  rw [ofChars_of_padded_brackets hname hwritable.name_mark hclose htext]
  exact ⟨hwritable.name_trimmed, written,
    Options.ofChars_intercalate hoptions hdistinct hpieces, hperm⟩

/-- A written designation is read back: its name and exactly the options that were written. Reading
the options of any designation fails exactly if a part between commas is neither blank nor has an
equals sign. -/
theorem written_roundtrip :
    (∀ (name : List Char) (options : Options) (text : List Char),
      IsWritable name options → Writes name options text →
      (ofChars text).name = name
        ∧ ∃ read, Options.ofDesignation (α := α) (ofChars text) = .ok read ∧ read.Perm options
          ∧ ∀ option, read.find? option = options.find? option)
    ∧ ∀ d : Designation, (∃ e, Options.ofDesignation (α := α) d = .error e)
      ↔ ∃ raw ∈ d.optionText, ∃ part ∈ raw.splitOn ',', Options.IsStray part := by
  refine ⟨fun name options text hwritable h => ?_, fun d => ?_⟩
  · obtain ⟨hname, read, hread, hperm⟩ := ofDesignation_of_writes (α := α) hwritable h
    exact ⟨hname, read, hread, hperm, Options.find?_eq_of_perm hwritable.distinct hperm⟩
  · rw [Options.ofDesignation]
    cases d.optionText with
    | none => simp
    | some raw => simpa using Options.exists_ofChars_eq_error_iff

/-- Two options, one of them without a name and a value, the other one with marks in its value. -/
def sampleOptions : Options :=
  [("k".toList, "x=[y".toList), ([], [])]

/-- The options in the other order, with blanks of several kinds around them. -/
def sampleText : List Char :=
  "\t A b [ =\u00a0,k\n= x=[y] ".toList

theorem written_roundtrip_sample :
    IsWritable "A b".toList sampleOptions ∧ Writes "A b".toList sampleOptions sampleText
      ∧ (ofChars sampleText).name = "A b".toList
      ∧ (∃ read, Options.ofDesignation (α := ℚ) (ofChars sampleText) = .ok read
        ∧ read.find? "k".toList = some "x=[y".toList ∧ read.find? [] = some [])
      ∧ ∃ e, Options.ofDesignation (α := ℚ) (ofChars "A[k=1,,l]".toList) = .error e := by
  have hwritable : IsWritable "A b".toList sampleOptions := by
    refine ⟨by decide, by decide, List.forall_mem_cons.mpr ⟨?_, List.forall_mem_singleton.mpr ?_⟩,
      by decide⟩ <;> constructor <;> decide
  have hwrites : Writes "A b".toList sampleOptions sampleText := by
    have hpieces : List.Forall₂ Options.Writes [([], []), ("k".toList, "x=[y".toList)]
        [" =\u00a0".toList, "k\n= x=[y".toList] :=
      .cons ⟨[' '], ['\u00a0'], ⟨[' '], [], by decide, by decide, rfl⟩,
          ⟨['\u00a0'], [], by decide, by decide, rfl⟩, by decide⟩
        (.cons ⟨"k\n".toList, " x=[y".toList, ⟨[], ['\n'], by decide, by decide, by decide⟩,
          ⟨[' '], [], by decide, by decide, by decide⟩, by decide⟩ .nil)
    exact ⟨_, "A b ".toList, _, .swap _ _ _, ⟨[], [' '], by decide, by decide, by decide⟩, hpieces,
      "\t ".toList, [' '], by decide, by decide, by decide⟩
  obtain ⟨hread, hfail⟩ := written_roundtrip (α := ℚ)
  obtain ⟨hname, read, hok, -, hfind⟩ := hread _ _ _ hwritable hwrites
  refine ⟨hwritable, hwrites, hname, ⟨read, hok, ?_, ?_⟩, ?_⟩
  · rw [hfind]
    decide
  · rw [hfind]
    decide
  · exact (hfail _).mpr ⟨"k=1,,l".toList, by decide, ['l'], by decide, by decide⟩

end Designation

end Datacenter
