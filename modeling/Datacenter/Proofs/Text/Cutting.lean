import Mathlib.Data.List.TakeWhile
import Datacenter.Text.Blank
import Datacenter.Text.Pieces

/-!
# Texts that are cut where they were joined

Cutting a text at a separator gives back the parts it was joined from, as long as the separator does
not occur where it would be found too early (`Text.splitFirst_append`, `Text.pieces_eq_splitOn` with
`List.splitOn_intercalate`), and trimming gives back a text that blanks were put around
(`Text.Padded.trim_eq`).

A separator that is no blank holds up the trimming: what is in front of it is trimmed in front only,
and what is behind it at the end only (`Text.trim_append_cons`). So it does not matter whether a text
is trimmed before it is cut or the parts afterwards.
-/

namespace Datacenter.Text

variable {sep c : Char} {cs front back text : List Char}

/-! ## Cutting -/

theorem splitFirst_append {before : List Char} (hbefore : sep ∉ before) (after : List Char) :
    splitFirst sep (before ++ sep :: after) = some (before, after) := by
  induction before with
  | nil => simp [splitFirst]
  | cons c cs ih =>
    rw [List.mem_cons, not_or] at hbefore
    rw [List.cons_append, splitFirst, if_neg (Ne.symm hbefore.1), ih hbefore.2, Option.map_some]

theorem splitFirst_of_not_mem {cs : List Char} (hsep : sep ∉ cs) : splitFirst sep cs = none := by
  induction cs with
  | nil => rfl
  | cons c cs ih =>
    rw [List.mem_cons, not_or] at hsep
    rw [splitFirst, if_neg (Ne.symm hsep.1), ih hsep.2, Option.map_none]

/-- The pieces between the occurrences of a character are those of the library. -/
theorem pieces_eq_splitOn (sep : Char) (cs : List Char) : pieces sep cs = cs.splitOn sep := by
  induction cs with
  | nil => rfl
  | cons c cs ih =>
    have hsplit : (c :: cs).splitOn sep
        = if (c == sep) = true then [] :: cs.splitOn sep
          else (cs.splitOn sep).modifyHead (List.cons c) :=
      List.splitOnP_cons_eq_if_modifyHead c cs
    rw [hsplit, pieces, ih]
    simp only [beq_iff_eq]
    split
    · rfl
    · cases hrest : cs.splitOn sep with
      | nil => exact absurd (ih.trans hrest) (pieces_ne_nil sep cs)
      | cons p ps => rfl

theorem pieces_of_not_mem {cs : List Char} (hsep : sep ∉ cs) : pieces sep cs = [cs] := by
  induction cs with
  | nil => rfl
  | cons c cs ih =>
    rw [List.mem_cons, not_or] at hsep
    rw [pieces, if_neg (Ne.symm hsep.1), ih hsep.2]

/-! ## Trimming -/

theorem trimFront_eq_self {cs : List Char} (hfirst : ∀ c ∈ cs.head?, isBlank c = false) :
    trimFront cs = cs := by
  cases cs with
  | nil => rfl
  | cons c cs => exact List.dropWhile_cons_of_neg (by simp [hfirst c rfl])

theorem trimBack_eq_self {cs : List Char} (hlast : ∀ c ∈ cs.getLast?, isBlank c = false) :
    trimBack cs = cs := by
  have hback : trimFront cs.reverse = cs.reverse :=
    trimFront_eq_self (by rwa [List.head?_reverse])
  exact (congrArg List.reverse hback).trans cs.reverse_reverse

/-- A text is trimmed if it has no blank at its ends. -/
theorem trim_eq_self {cs : List Char} (hfirst : ∀ c ∈ cs.head?, isBlank c = false)
    (hlast : ∀ c ∈ cs.getLast?, isBlank c = false) : trim cs = cs := by
  rw [trim, trimFront_eq_self hfirst, trimBack_eq_self hlast]

theorem trim_of_forall {cs : List Char} (hcs : ∀ c ∈ cs, isBlank c = false) : trim cs = cs :=
  trim_eq_self (fun c hc => hcs c (List.mem_of_head? hc)) fun c hc => hcs c (List.mem_of_getLast? hc)

/-- The text is nothing but blanks. -/
def Blank (cs : List Char) : Prop :=
  ∀ c ∈ cs, isBlank c = true

instance (cs : List Char) : Decidable (Blank cs) :=
  List.decidableBAll _ cs

theorem trim_blank_append (hfront : Blank front) (cs : List Char) : trim (front ++ cs) = trim cs :=
  congrArg trimBack (List.dropWhile_append_of_pos hfront)

theorem trimBack_append_blank (hback : Blank back) (cs : List Char) :
    trimBack (cs ++ back) = trimBack cs := by
  have hreverse : ∀ c ∈ back.reverse, isBlank c = true :=
    fun c hc => hback c (List.mem_reverse.mp hc)
  rw [trimBack, List.reverse_append, List.dropWhile_append_of_pos hreverse, trimBack]

theorem trim_append_blank (hback : Blank back) (cs : List Char) : trim (cs ++ back) = trim cs := by
  have hnone : back.dropWhile isBlank = [] := List.dropWhile_eq_nil_iff.mpr hback
  rw [trim, trimFront, List.dropWhile_append]
  split
  case isTrue hempty =>
    rw [trim, trimFront, hnone, List.isEmpty_iff.mp hempty]
  case isFalse => exact trimBack_append_blank hback _

/-- A character that is no blank ends the blanks in front. -/
theorem trimFront_append_cons (hsep : isBlank sep = false) (cs ds : List Char) :
    trimFront (cs ++ sep :: ds) = trimFront cs ++ sep :: ds := by
  rw [trimFront, List.dropWhile_append, List.dropWhile_cons_of_neg (ne_true_of_eq_false hsep),
    trimFront]
  split
  case isTrue hempty => rw [List.isEmpty_iff.mp hempty, List.nil_append]
  case isFalse => rfl

theorem trimBack_append_cons (hsep : isBlank sep = false) (cs ds : List Char) :
    trimBack (cs ++ sep :: ds) = cs ++ sep :: trimBack ds := by
  have hreverse : (cs ++ sep :: ds).reverse = ds.reverse ++ sep :: cs.reverse := by simp
  have hfront := trimFront_append_cons hsep ds.reverse cs.reverse
  rw [trimFront, trimFront] at hfront
  rw [trimBack, hreverse, hfront, trimBack]
  simp

theorem trim_append_cons (hsep : isBlank sep = false) (cs ds : List Char) :
    trim (cs ++ sep :: ds) = trimFront cs ++ sep :: trimBack ds := by
  rw [trim, trimFront_append_cons hsep, trimBack_append_cons hsep]

/-- What is left of a text by trimming one side is trimmed to the same as the text. -/
theorem trim_trimFront (cs : List Char) : trim (trimFront cs) = trim cs := by
  have hblank : Blank (cs.takeWhile isBlank) := fun c hc => List.mem_takeWhile_imp hc
  rw [← trim_blank_append hblank, trimFront, List.takeWhile_append_dropWhile]

theorem trim_trimBack (cs : List Char) : trim (trimBack cs) = trim cs := by
  have hblank : Blank (cs.reverse.takeWhile isBlank).reverse :=
    fun c hc => List.mem_takeWhile_imp (List.mem_reverse.mp hc)
  rw [← trim_append_blank hblank, trimBack, ← List.reverse_append, List.takeWhile_append_dropWhile,
    List.reverse_reverse]

theorem not_mem_trimFront (hc : c ∉ cs) : c ∉ trimFront cs :=
  fun h => hc ((List.dropWhile_sublist _).mem h)

/-- Trimming loses blanks only. -/
theorem mem_trim_iff (hc : isBlank c = false) : c ∈ trim cs ↔ c ∈ cs := by
  constructor
  · intro h
    have hback : c ∈ trimFront cs :=
      List.mem_reverse.mp ((List.dropWhile_sublist _).mem (List.mem_reverse.mp h))
    exact (List.dropWhile_sublist _).mem hback
  · intro h
    obtain ⟨before, after, rfl⟩ := List.append_of_mem h
    rw [trim_append_cons hc]
    simp

theorem trim_eq_nil_iff : trim cs = [] ↔ Blank cs := by
  constructor
  · intro h c hc
    by_contra hblank
    have hmem := (mem_trim_iff (eq_false_of_ne_true hblank)).mpr hc
    rw [h] at hmem
    contradiction
  · intro h
    rw [← List.append_nil cs, trim_blank_append h]
    rfl

/-! ## Texts with blanks around them -/

/-- The text is some other one with blanks around it. -/
def Padded (cs text : List Char) : Prop :=
  ∃ front back, Blank front ∧ Blank back ∧ text = front ++ cs ++ back

theorem Padded.trim_eq (h : Padded cs text) : trim text = trim cs := by
  obtain ⟨front, back, hfront, hback, rfl⟩ := h
  rw [trim_append_blank hback, trim_blank_append hfront]

theorem Padded.not_mem (h : Padded cs text) (hblank : isBlank c = false) (hc : c ∉ cs) :
    c ∉ text := by
  rw [← mem_trim_iff hblank, h.trim_eq, mem_trim_iff hblank]
  exact hc

end Datacenter.Text
