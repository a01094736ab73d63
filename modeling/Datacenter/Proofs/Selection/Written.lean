import Datacenter.Proofs.Settings.Options
import Datacenter.Selection.Text

/-!
# Written selection policies

A selection policy can be written down, with a fallback that is written down in turn, to any depth.
`SelectionPolicy.Expression` is the syntax of what is written, `text` writes it and `policy` says
what it stands for; reading the text gives this policy.

## Closing brackets

Brackets are not matched when a designation is read. Everything behind the first opening bracket
loses all its closing brackets at once, so what is read for a fallback is not the text that was
written for it: `MaximumCorrelation[fallback=RandomSelection[seed=5]]` hands on
`RandomSelection[seed=5`. Hence the induction is over texts that have lost their closing brackets
(`ofChars_unclosed`), and since none are left in them, the fallback of such a text is read from a
text of the same kind. A whole text is then one more level around an unclosed one.
-/

namespace Datacenter

/-- The text has neither blanks nor commas, so nothing of it is trimmed and it is in one piece. -/
def IsUnbroken (cs : List Char) : Prop :=
  ∀ c ∈ cs, Text.isBlank c = false ∧ c ≠ ','

instance (cs : List Char) : Decidable (IsUnbroken cs) :=
  List.decidableBAll _ cs

namespace IsUnbroken

variable {cs ds : List Char}

theorem append (hcs : IsUnbroken cs) (hds : IsUnbroken ds) : IsUnbroken (cs ++ ds) :=
  List.forall_mem_append.mpr ⟨hcs, hds⟩

theorem cons {c : Char} (hc : Text.isBlank c = false ∧ c ≠ ',') (hcs : IsUnbroken cs) :
    IsUnbroken (c :: cs) :=
  List.forall_mem_cons.mpr ⟨hc, hcs⟩

theorem unclosed (hcs : IsUnbroken cs) : IsUnbroken (unclosed cs) :=
  fun c hc => hcs c (List.mem_filter.mp hc).1

theorem trim_eq (hcs : IsUnbroken cs) : Text.trim cs = cs :=
  Text.trim_of_forall fun c hc => (hcs c hc).1

theorem trimBack_eq (hcs : IsUnbroken cs) : Text.trimBack cs = cs :=
  Text.trimBack_eq_self fun c hc => (hcs c (List.mem_of_getLast? hc)).1

end IsUnbroken

/-! ## Designations with one option -/

/-- A name by itself is a designation without options. -/
theorem Designation.ofChars_of_not_mem {name : List Char} (hname : IsUnbroken name)
    (hopen : '[' ∉ name) : ofChars name = { name := name, optionText := none } := by
  simp only [ofChars, hname.trim_eq, Text.splitFirst_of_not_mem hopen]

/-- Behind the first opening bracket all closing brackets are lost. -/
theorem Designation.ofChars_bracket {name rest : List Char} (hname : IsUnbroken name)
    (hopen : '[' ∉ name) (hrest : IsUnbroken rest) :
    ofChars (name ++ '[' :: rest) = { name := name, optionText := some (unclosed rest) } := by
  rw [ofChars_append_open hopen, hname.trim_eq, hrest.trimBack_eq]

/-- A name with one option in brackets. -/
theorem Designation.ofChars_option {name option value : List Char} (hname : IsUnbroken name)
    (hopen : '[' ∉ name) (hoption : IsUnbroken option) (hvalue : IsUnbroken value) :
    ofChars (name ++ '[' :: (option ++ '=' :: value))
      = { name := name, optionText := some (unclosed (option ++ '=' :: value)) } :=
  ofChars_bracket hname hopen (hoption.append (hvalue.cons (by decide)))

namespace Options

variable {α : Type}

/-- The text of one option is read as this option. -/
theorem ofChars_single {name value : List Char} (hname : IsUnbroken name) (hequals : '=' ∉ name)
    (hvalue : IsUnbroken value) :
    ofChars (α := α) (name ++ '=' :: value) = .ok [(name, value)] := by
  have hunbroken : IsUnbroken (name ++ '=' :: value) :=
    hname.append (hvalue.cons (by decide))
  have hcomma : ',' ∉ name ++ '=' :: value := fun h => (hunbroken _ h).2 rfl
  have hpieces : piecesOf (name ++ '=' :: value) = [name ++ '=' :: value] := by
    rw [piecesOf, Text.pieces_of_not_mem hcomma, List.map_singleton, hunbroken.trim_eq]
    simp
  have hread : readOption (α := α) (name ++ '=' :: value) = .ok (name, value) := by
    simp only [readOption, Text.splitFirst_append hequals, hname.trim_eq, hvalue.trim_eq]
  rw [ofChars, hpieces, readPieces, hread]
  rfl

/-- An option behind a name is read from its text without closing brackets. -/
theorem ofDesignation_single (name : List Char) {option value : List Char}
    (hoption : IsUnbroken option) (hequals : '=' ∉ option) (hclose : ']' ∉ option)
    (hvalue : IsUnbroken value) :
    ofDesignation (α := α)
        { name := name, optionText := some (unclosed (option ++ '=' :: value)) }
      = .ok [(option, unclosed value)] := by
  have hunclosed : unclosed (option ++ '=' :: value) = option ++ '=' :: unclosed value := by
    rw [unclosed_append, unclosed_eq_self hclose]
    rfl
  rw [ofDesignation, hunclosed]
  exact ofChars_single hoption hequals hvalue.unclosed

/-- An option by itself is known if its name is. -/
theorem check_single (name : String) (value : List Char) :
    check (α := α) [(name.toList, value)] [name] = .ok () := by
  simp [check, firstUnknown]

theorem find?_single (name value : List Char) : find? [(name, value)] name = some value := by
  simp [find?]

theorem getD_single {β : Type} (name : String) {value : List Char} {read? : List Char → Option β}
    {b : β} (default : β) (hread : read? value = some b) :
    getD (α := α) [(name.toList, value)] name read? default = .ok b := by
  simp only [getD, find?_single, hread]

end Options

/-! ## Numbers -/

theorem Text.isBlank_of_isDigit {c : Char} (hc : c.isDigit = true) : isBlank c = false := by
  simp only [Char.isDigit, Bool.and_eq_true, decide_eq_true_eq, ge_iff_le,
    UInt32.le_iff_toNat_le] at hc
  have hlow : 48 ≤ c.toNat := hc.1
  have hhigh : c.toNat ≤ 57 := hc.2
  simp only [isBlank, Bool.or_eq_false_iff, Bool.and_eq_false_iff, decide_eq_false_iff_not,
    beq_eq_false_iff_ne]
  omega

/-- A number is read back from its digits. -/
theorem Numeral.natural?_toDigits (n : Nat) : natural? (Nat.toDigits 10 n) = some n := by
  have hvalue : ofDigits (Nat.toDigits 10 n) = n :=
    Nat.ofDigitChars_toDigits (by decide) (by decide)
  cases hds : Nat.toDigits 10 n with
  | nil => exact absurd hds Nat.toDigits_ne_nil
  | cons d ds =>
    have hdigits : ∀ c ∈ d :: ds, c.isDigit = true := fun c hc =>
      Nat.isDigit_of_mem_toDigits (by decide) (by decide) (hds ▸ hc)
    have hplus : d ≠ '+' := by
      rintro rfl
      exact absurd (hdigits '+' List.mem_cons_self) (by decide)
    rw [hds] at hvalue
    simpa [natural?, hplus, hvalue] using hdigits

theorem isDigit_of_mem_repr {n : Nat} {c : Char} (hc : c ∈ n.repr.toList) : c.isDigit = true := by
  rw [Nat.toList_repr] at hc
  exact Nat.isDigit_of_mem_toDigits (by decide) (by decide) hc

theorem isUnbroken_repr (n : Nat) : IsUnbroken n.repr.toList := fun c hc =>
  have hdigit := isDigit_of_mem_repr hc
  ⟨Text.isBlank_of_isDigit hdigit, by rintro rfl; contradiction⟩

theorem Options.readSize?_repr (n : UInt64) :
    readSize? (unclosed n.toNat.repr.toList) = some n.toNat := by
  have hclose : ']' ∉ n.toNat.repr.toList := fun h => absurd (isDigit_of_mem_repr h) (by decide)
  rw [unclosed_eq_self hclose, Nat.toList_repr, readSize?, Numeral.natural?_toDigits]
  simpa [Option.filter, UInt64.size] using n.toNat_lt

/-! ## Reading policies -/

namespace SelectionPolicy

variable {α : Type}

/-- What a name with certain options stands for. -/
theorem ofChars_eq {text name : List Char} {optionText : Option (List Char)} {options : Options}
    (hname : Designation.ofChars text = { name := name, optionText := optionText })
    (hoptions : Options.ofDesignation (α := α) { name := name, optionText := optionText }
      = .ok options) :
    ofChars (α := α) text =
      if name = "MinimumUtilization".toList then do
        Options.check options []
        return minimumUtilization
      else if name = "MinimumMigrationTime".toList then do
        Options.check options []
        return minimumMigrationTime
      else if name = "MaximumCorrelation".toList then do
        Options.check options ["fallback"]
        match options.find? "fallback".toList with
        | none => return maximumCorrelation minimumUtilization
        | some fallback => return maximumCorrelation (← ofChars fallback)
      else if name = "RandomSelection".toList then do
        Options.check options ["seed"]
        return random (.ofSeed (← Options.getD options "seed" Options.readSize? defaultSeed))
      else .error (.unknownName .selection (String.ofList text)) := by
  rw [ofChars, hname]
  split
  case h_1 e he =>
    rw [hoptions] at he
    contradiction
  case h_2 options' hoptions' =>
    obtain rfl := Except.ok.inj (hoptions'.symm.trans hoptions)
    dsimp only
    split
    · rfl
    split
    · rfl
    split
    · congr 1
      funext _
      split <;> rename_i h <;> simp only [h]
    · rfl

/-- What is read for a fallback is what is written for it, without any closing brackets. -/
theorem ofChars_fallback {value : List Char} (hvalue : IsUnbroken value) :
    ofChars (α := α) ("MaximumCorrelation[fallback=".toList ++ value)
      = do return maximumCorrelation (← ofChars (unclosed value)) := by
  have hoption : IsUnbroken "fallback".toList := by decide
  have hunbroken : IsUnbroken "MaximumCorrelation".toList := by decide
  have hname := Designation.ofChars_option hunbroken (by decide) hoption hvalue
  have hoptions := Options.ofDesignation_single (α := α) "MaximumCorrelation".toList hoption
    (by decide) (by decide) hvalue
  have htext : "MaximumCorrelation[fallback=".toList ++ value
      = "MaximumCorrelation".toList ++ '[' :: ("fallback".toList ++ '=' :: value) := by simp
  rw [htext, ofChars_eq hname hoptions, if_neg (by decide), if_neg (by decide), if_pos rfl,
    Options.check_single, Options.find?_single]
  rfl

/-- What is read for a seed is what is written for it, without any closing brackets. -/
theorem ofChars_seed {value : List Char} {seed : Nat} (hvalue : IsUnbroken value)
    (hseed : Options.readSize? (unclosed value) = some seed) :
    ofChars (α := α) ("RandomSelection[seed=".toList ++ value) = .ok (random (.ofSeed seed)) := by
  have hoption : IsUnbroken "seed".toList := by decide
  have hunbroken : IsUnbroken "RandomSelection".toList := by decide
  have hname := Designation.ofChars_option hunbroken (by decide) hoption hvalue
  have hoptions := Options.ofDesignation_single (α := α) "RandomSelection".toList hoption
    (by decide) (by decide) hvalue
  have htext : "RandomSelection[seed=".toList ++ value
      = "RandomSelection".toList ++ '[' :: ("seed".toList ++ '=' :: value) := by simp
  rw [htext, ofChars_eq hname hoptions, if_neg (by decide), if_neg (by decide), if_neg (by decide),
    if_pos rfl, Options.check_single, Options.getD_single "seed" defaultSeed hseed]
  rfl

/-- A name by itself is read as it stands. -/
theorem ofChars_name {name : List Char} (hname : IsUnbroken name) (hopen : '[' ∉ name) :
    ofChars (α := α) name =
      if name = "MinimumUtilization".toList then .ok minimumUtilization
      else if name = "MinimumMigrationTime".toList then .ok minimumMigrationTime
      else if name = "MaximumCorrelation".toList then .ok (maximumCorrelation minimumUtilization)
      else if name = "RandomSelection".toList then .ok (random (.ofSeed defaultSeed))
      else .error (.unknownName .selection (String.ofList name)) :=
  ofChars_eq (Designation.ofChars_of_not_mem hname hopen) rfl

/-! ## Writing policies -/

/-- What may be written for a selection policy. -/
inductive Expression where
  | minimumUtilization
  | minimumMigrationTime
  /-- Random selection without a seed. -/
  | random
  /-- Random selection with a seed. -/
  | seeded (seed : UInt64)
  /-- Maximum correlation without a fallback. -/
  | maximumCorrelation
  /-- Maximum correlation with a fallback. -/
  | withFallback (fallback : Expression)
deriving DecidableEq, Repr

namespace Expression

/-- The text of an expression. -/
def text : Expression → String
  | minimumUtilization => "MinimumUtilization"
  | minimumMigrationTime => "MinimumMigrationTime"
  | random => "RandomSelection"
  | seeded seed => "RandomSelection[seed=" ++ seed.toNat.repr ++ "]"
  | maximumCorrelation => "MaximumCorrelation"
  | withFallback fallback => "MaximumCorrelation[fallback=" ++ fallback.text ++ "]"

/-- The policy that an expression stands for. The seed is 123 if none is written, and the fallback
is minimum utilization. -/
def policy : Expression → SelectionPolicy
  | minimumUtilization => .minimumUtilization
  | minimumMigrationTime => .minimumMigrationTime
  | random => .random (.ofSeed 123)
  | seeded seed => .random (.ofSeed seed.toNat)
  | maximumCorrelation => .maximumCorrelation .minimumUtilization
  | withFallback fallback => .maximumCorrelation fallback.policy

theorem text_seeded (seed : UInt64) :
    (seeded seed).text = "RandomSelection[seed=" ++ seed.toNat.repr ++ "]" :=
  rfl

theorem text_withFallback (fallback : Expression) :
    (withFallback fallback).text = "MaximumCorrelation[fallback=" ++ fallback.text ++ "]" :=
  rfl

/-- The text of an expression with brackets, cut behind what comes before the inner text. -/
theorem toList_text_seeded (seed : UInt64) : (seeded seed).text.toList
    = "RandomSelection[seed=".toList ++ (seed.toNat.repr.toList ++ [']']) := by
  rw [text_seeded, String.toList_append, String.toList_append, List.append_assoc]
  rfl

theorem toList_text_withFallback (fallback : Expression) : (withFallback fallback).text.toList
    = "MaximumCorrelation[fallback=".toList ++ (fallback.text.toList ++ [']']) := by
  rw [text_withFallback, String.toList_append, String.toList_append, List.append_assoc]
  rfl

theorem isUnbroken_text (e : Expression) : IsUnbroken e.text.toList := by
  have hclose : IsUnbroken [']'] := by decide
  induction e with
  | minimumUtilization | minimumMigrationTime | random | maximumCorrelation => decide
  | seeded seed =>
    have hopen : IsUnbroken "RandomSelection[seed=".toList := by decide
    rw [toList_text_seeded]
    exact hopen.append ((isUnbroken_repr seed.toNat).append hclose)
  | withFallback fallback ih =>
    have hopen : IsUnbroken "MaximumCorrelation[fallback=".toList := by decide
    rw [toList_text_withFallback]
    exact hopen.append (ih.append hclose)

end Expression

/-- An expression is read as its policy also when its text has lost its closing brackets. -/
theorem ofChars_unclosed (e : Expression) :
    ofChars (α := α) (unclosed e.text.toList) = .ok e.policy := by
  induction e with
  | minimumUtilization | minimumMigrationTime | random | maximumCorrelation =>
    exact ofChars_name (by decide) (by decide)
  | seeded seed =>
    have htext : unclosed (Expression.seeded seed).text.toList
        = "RandomSelection[seed=".toList ++ unclosed seed.toNat.repr.toList := by
      rw [Expression.toList_text_seeded, unclosed_append, unclosed_append_close]
      rfl
    rw [htext]
    exact ofChars_seed (isUnbroken_repr seed.toNat).unclosed
      ((congrArg _ (unclosed_unclosed _)).trans (Options.readSize?_repr seed))
  | withFallback fallback ih =>
    have htext : unclosed (Expression.withFallback fallback).text.toList
        = "MaximumCorrelation[fallback=".toList ++ unclosed fallback.text.toList := by
      rw [Expression.toList_text_withFallback, unclosed_append, unclosed_append_close]
      rfl
    rw [htext, ofChars_fallback fallback.isUnbroken_text.unclosed, unclosed_unclosed, ih]
    rfl

/-- A written policy is read back as the policy it stands for. -/
theorem ofText_text (e : Expression) : ofText (α := α) e.text = .ok e.policy := by
  have hclose : IsUnbroken [']'] := by decide
  cases e with
  | minimumUtilization | minimumMigrationTime | random | maximumCorrelation =>
    exact ofChars_name (by decide) (by decide)
  | seeded seed =>
    rw [ofText, Expression.toList_text_seeded]
    refine ofChars_seed ((isUnbroken_repr seed.toNat).append hclose) ?_
    rw [unclosed_append_close, Options.readSize?_repr]
  | withFallback fallback =>
    rw [ofText, Expression.toList_text_withFallback,
      ofChars_fallback (fallback.isUnbroken_text.append hclose), unclosed_append_close,
      ofChars_unclosed fallback]
    rfl

end SelectionPolicy

end Datacenter
