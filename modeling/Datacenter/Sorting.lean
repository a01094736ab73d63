/-!
# Stable sorting and searching

`stableSort le xs` sorts by insertion from the right. An element is placed before the first one
that it may precede, so elements which may precede each other both ways keep their order. The
recursion is on the lists alone and unfolds in the kernel.

`partitionPoint test xs` searches by halves for the place where a sorted list changes from elements
that pass a test to elements that do not. In a list that changes more than once it finds one of these
places.
-/

namespace Datacenter

variable {β : Type}

/-- Places an element before the first one that it may precede. -/
def placeBefore (le : β → β → Bool) (x : β) : List β → List β
  | [] => [x]
  | y :: ys => if le x y then x :: y :: ys else y :: placeBefore le x ys

/-- Sorts a list; elements that may precede each other both ways keep their order. -/
def stableSort (le : β → β → Bool) : List β → List β
  | [] => []
  | x :: xs => placeBefore le x (stableSort le xs)

theorem perm_placeBefore (le : β → β → Bool) (x : β) :
    ∀ ys : List β, (placeBefore le x ys).Perm (x :: ys)
  | [] => .refl _
  | y :: ys => by
    unfold placeBefore
    split
    · exact .refl _
    · exact ((perm_placeBefore le x ys).cons y).trans (.swap x y ys)

theorem perm_stableSort (le : β → β → Bool) : ∀ xs : List β, (stableSort le xs).Perm xs
  | [] => .refl _
  | x :: xs => (perm_placeBefore le x _).trans ((perm_stableSort le xs).cons x)

@[simp] theorem length_stableSort (le : β → β → Bool) (xs : List β) :
    (stableSort le xs).length = xs.length :=
  (perm_stableSort le xs).length_eq

@[simp] theorem mem_stableSort {le : β → β → Bool} {xs : List β} {x : β} :
    x ∈ stableSort le xs ↔ x ∈ xs :=
  (perm_stableSort le xs).mem_iff

/-- The first of the elements that may precede all others. -/
def least? (le : β → β → Bool) : List β → Option β
  | [] => none
  | x :: xs =>
    match least? le xs with
    | none => some x
    | some y => some (if le x y then x else y)

theorem mem_of_least? {le : β → β → Bool} {x : β} :
    ∀ {xs : List β}, least? le xs = some x → x ∈ xs
  | [], h => by simp [least?] at h
  | y :: ys, h => by
    unfold least? at h
    split at h
    · cases h
      exact List.mem_cons_self
    · rename_i z hz
      cases h
      split
      · exact List.mem_cons_self
      · exact List.mem_cons_of_mem _ (mem_of_least? hz)

theorem length_of_drop_eq_cons {n : Nat} {middle : β} {xs behind : List β}
    (h : xs.drop n = middle :: behind) : n + 1 + behind.length = xs.length := by
  have hlength := congrArg List.length h
  rw [List.length_drop, List.length_cons] at hlength
  omega

/-- How many elements pass a test, if those that do come before those that do not. The search looks
at the element in the middle and goes on with those behind it or with those before it. -/
def partitionPoint (test : β → Bool) (xs : List β) : Nat :=
  match _hmiddle : xs.drop (xs.length / 2) with
  | [] => 0
  | middle :: behind =>
    if test middle then xs.length / 2 + 1 + partitionPoint test behind
    else partitionPoint test (xs.take (xs.length / 2))
termination_by xs.length
decreasing_by
  · have hlength := length_of_drop_eq_cons _hmiddle
    omega
  · have hlength := length_of_drop_eq_cons _hmiddle
    rw [List.length_take]
    omega

theorem partitionPoint_le_length (test : β → Bool) (xs : List β) :
    partitionPoint test xs ≤ xs.length := by
  fun_induction partitionPoint test xs with
  | case1 => exact Nat.zero_le _
  | case2 xs middle behind hmiddle _ ih =>
    have hlength := length_of_drop_eq_cons hmiddle
    omega
  | case3 xs middle behind hmiddle _ ih =>
    rw [List.length_take] at ih
    omega

/-- The last element in front of the place is one of the list. -/
theorem lt_length_of_partitionPoint {test : β → Bool} {xs : List β} {i : Nat}
    (h : partitionPoint test xs = i + 1) : i < xs.length := by
  have hle := partitionPoint_le_length test xs
  omega

/-- The order in which `compare` sorts. -/
def inOrder [Ord β] (x y : β) : Bool :=
  (compare x y).isLE

/-- Sorts numbers and the like from the smallest one on. -/
def ascending [Ord β] (xs : List β) : List β :=
  stableSort inOrder xs

end Datacenter
