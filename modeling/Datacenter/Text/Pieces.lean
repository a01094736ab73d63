/-!
# Cutting texts

Cutting a text at the first occurrence of a character, and cutting it into the pieces between all
occurrences.
-/

namespace Datacenter.Text

/-- The parts before and after the first occurrence of a character. -/
def splitFirst (sep : Char) : List Char → Option (List Char × List Char)
  | [] => none
  | c :: cs =>
    if c = sep then some ([], cs)
    else (splitFirst sep cs).map fun (before, after) => (c :: before, after)

/-- The pieces between the occurrences of a character; there is one more than occurrences. -/
def pieces (sep : Char) : List Char → List (List Char)
  | [] => [[]]
  | c :: cs =>
    if c = sep then [] :: pieces sep cs
    else match pieces sep cs with
      | p :: ps => (c :: p) :: ps
      | [] => [[c]]

/-- Nothing but one separator is lost. -/
theorem splitFirst_eq_some {sep : Char} {before after : List Char} :
    ∀ {cs : List Char}, splitFirst sep cs = some (before, after) → cs = before ++ sep :: after
  | [], h => by simp [splitFirst] at h
  | c :: cs, h => by
    unfold splitFirst at h
    split at h
    · rename_i hc
      cases h
      rw [hc, List.nil_append]
    · obtain ⟨⟨b, a⟩, hba, heq⟩ := Option.map_eq_some_iff.mp h
      cases heq
      rw [splitFirst_eq_some hba, List.cons_append]

theorem pieces_ne_nil (sep : Char) : ∀ cs : List Char, pieces sep cs ≠ []
  | [] => by simp [pieces]
  | c :: cs => by
    unfold pieces
    split
    · simp
    · split <;> simp

theorem length_le_of_mem_pieces {sep : Char} :
    ∀ {cs p : List Char}, p ∈ pieces sep cs → p.length ≤ cs.length
  | [], p, h => by
    rw [pieces, List.mem_singleton] at h
    exact Nat.le_of_eq (congrArg List.length h)
  | c :: cs, p, h => by
    unfold pieces at h
    split at h
    · rcases List.mem_cons.mp h with h | h
      · rw [h]; exact Nat.zero_le _
      · exact Nat.le_succ_of_le (length_le_of_mem_pieces h)
    · split at h
      · rename_i q qs hq
        rcases List.mem_cons.mp h with h | h
        · have hmem : q ∈ pieces sep cs := by
            rw [hq]
            exact List.mem_cons_self
          have := length_le_of_mem_pieces hmem
          rw [h, List.length_cons, List.length_cons]
          omega
        · exact Nat.le_succ_of_le
            (length_le_of_mem_pieces (by rw [hq]; exact List.mem_cons_of_mem _ h))
      · rename_i hq
        exact absurd hq (pieces_ne_nil sep cs)

end Datacenter.Text
