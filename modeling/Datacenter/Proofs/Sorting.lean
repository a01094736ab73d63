import Datacenter.Sorting

/-!
# Sorted lists

`stableSort` puts a list into order (`pairwise_stableSort`) and deals with the elements that pass a
test as if there were no others (`filter_stableSort`). What it puts at the two ends is known without
sorting: the first of the elements that may precede all others comes first (`head?_stableSort`), and
the last of those that all others may precede comes last (`getLast?_stableSort`).

`partitionPoint` finds the end of the elements that pass a test if no other element comes before one
of them (`take_partitionPoint`). Whether this is so is a matter of the order of the list; the search
looks at a few elements only and cannot tell.
-/

namespace Datacenter

variable {β : Type} {le : β → β → Bool} {test : β → Bool} {x : β} {xs ys : List β}

/-! ## The first and the last of the best elements -/

theorem least?_eq_none (h : least? le xs = none) : xs = [] := by
  cases xs with
  | nil => rfl
  | cons y ys =>
    unfold least? at h
    split at h <;> cases h

/-- Going through a list finds the first of the elements that may precede all others. The order may
be a strict one, too. -/
theorem least?_eq_some_iff (htrans : ∀ x y z, le x y = true → le y z = true → le x z = true)
    (hbelow : ∀ x y z, le x y = true → le z y = false → le x z = true) :
    least? le xs = some x ↔ ∃ before after, xs = before ++ x :: after
      ∧ (∀ y ∈ before, le y x = false) ∧ ∀ y ∈ after, le x y = true := by
  constructor
  · induction xs generalizing x with
    | nil => exact fun h => nomatch h
    | cons y ys ih =>
      intro h
      unfold least? at h
      split at h
      case h_1 hnone =>
        cases h
        exact ⟨[], [], by rw [least?_eq_none hnone, List.nil_append], by simp, by simp⟩
      case h_2 z hz =>
        obtain ⟨before, after, rfl, hbefore, hafter⟩ := ih hz
        cases hyz : le y z with
        | false =>
          rw [hyz, if_neg Bool.false_ne_true] at h
          cases h
          exact ⟨y :: before, after, rfl, List.forall_mem_cons.mpr ⟨hyz, hbefore⟩, hafter⟩
        | true =>
          rw [hyz, if_pos rfl] at h
          cases h
          refine ⟨[], before ++ z :: after, rfl, by simp, ?_⟩
          refine List.forall_mem_append.mpr ⟨fun w hw => ?_, List.forall_mem_cons.mpr ⟨hyz, ?_⟩⟩
          · exact hbelow y z w hyz (hbefore w hw)
          · exact fun w hw => htrans y z w hyz (hafter w hw)
  · rintro ⟨before, after, rfl, hbefore, hafter⟩
    induction before with
    | nil =>
      rw [List.nil_append, least?]
      split
      case h_1 => rfl
      case h_2 z hz => rw [hafter z (mem_of_least? hz), if_pos rfl]
    | cons y before ih =>
      obtain ⟨hy, hbefore⟩ := List.forall_mem_cons.mp hbefore
      rw [List.cons_append, least?, ih hbefore]
      simp only [hy, if_neg Bool.false_ne_true]

/-- The last of the elements that all others may precede. It is the first one to precede those
behind it in the opposite order, if an element does not precede its equals in that one. -/
def greatest? (le : β → β → Bool) : List β → Option β :=
  least? fun x y => !le x y

/-- An element that does not pass a test is placed somewhere between those that do. -/
theorem filter_placeBefore_of_neg (hx : test x = false) (ys : List β) :
    (placeBefore le x ys).filter test = ys.filter test := by
  induction ys with
  | nil => simp [placeBefore, hx]
  | cons y ys ih =>
    unfold placeBefore
    split
    · exact List.filter_cons_of_neg (ne_true_of_eq_false hx)
    · rw [List.filter_cons, List.filter_cons, ih]

theorem placeBefore_of_forall (h : ∀ y ∈ ys, le x y = true) : placeBefore le x ys = x :: ys := by
  cases ys with
  | nil => rfl
  | cons y ys => rw [placeBefore, if_pos (h y List.mem_cons_self)]

theorem head?_placeBefore (x : β) (ys : List β) :
    (placeBefore le x ys).head? = some (ys.head?.elim x fun y => if le x y then x else y) := by
  cases ys with
  | nil => rfl
  | cons y ys =>
    unfold placeBefore
    split <;> simp [*]

/-- Sorting puts the first of the least elements first. -/
theorem head?_stableSort (xs : List β) : (stableSort le xs).head? = least? le xs := by
  induction xs with
  | nil => rfl
  | cons x xs ih =>
    rw [stableSort, head?_placeBefore, ih, least?]
    cases least? le xs <;> rfl

section

variable (htotal : ∀ x y, le x y = true ∨ le y x = true)
  (htrans : ∀ x y z, le x y = true → le y z = true → le x z = true)

include htotal htrans

theorem least?_eq_some_iff_of_total :
    least? le xs = some x ↔ ∃ before after, xs = before ++ x :: after
      ∧ (∀ y ∈ before, le y x = false) ∧ ∀ y ∈ after, le x y = true :=
  least?_eq_some_iff htrans fun x y z hxy hzy =>
    htrans x y z hxy ((htotal y z).resolve_right (ne_true_of_eq_false hzy))

theorem greatest?_eq_some_iff :
    greatest? le xs = some x ↔ ∃ before after, xs = before ++ x :: after
      ∧ (∀ y ∈ before, le y x = true) ∧ ∀ y ∈ after, le x y = false := by
  have hstrict : ∀ x y z, (!le x y) = true → (!le y z) = true → (!le x z) = true := by
    simp only [Bool.not_eq_true']
    intro x y z hxy hyz
    have hyx : le y x = true := (htotal x y).resolve_left (ne_true_of_eq_false hxy)
    exact eq_false_of_ne_true fun hxz => ne_true_of_eq_false hyz (htrans y x z hyx hxz)
  have hbelow : ∀ x y z, (!le x y) = true → (!le z y) = false → (!le x z) = true := by
    simp only [Bool.not_eq_true', Bool.not_eq_false']
    intro x y z hxy hzy
    exact eq_false_of_ne_true fun hxz => ne_true_of_eq_false hxy (htrans x z y hxz hzy)
  have hiff : least? (fun x y => !le x y) xs = some x ↔ _ := least?_eq_some_iff hstrict hbelow
  simpa only [greatest?, Bool.not_eq_true', Bool.not_eq_false'] using hiff

/-- Going through the elements that pass a test finds the last of the greatest ones among them. -/
theorem greatest?_filter_eq_some_iff :
    greatest? le (xs.filter test) = some x ↔ test x = true
      ∧ ∃ before after, xs = before ++ x :: after
        ∧ (∀ y ∈ before, test y = true → le y x = true)
        ∧ ∀ y ∈ after, test y = true → le x y = false := by
  rw [greatest?_eq_some_iff htotal htrans]
  constructor
  · rintro ⟨kept, rest, hfilter, hkept, hrest⟩
    obtain ⟨front, back, rfl, rfl, hback⟩ := List.filter_eq_append_iff.mp hfilter
    obtain ⟨dropped, after, rfl, hdropped, hx, rfl⟩ := List.filter_eq_cons_iff.mp hback
    refine ⟨hx, front ++ dropped, after, by rw [List.append_assoc], fun y hy hpass => ?_,
      fun y hy hpass => hrest y (List.mem_filter.mpr ⟨hy, hpass⟩)⟩
    rcases List.mem_append.mp hy with hy | hy
    · exact hkept y (List.mem_filter.mpr ⟨hy, hpass⟩)
    · exact absurd hpass (hdropped y hy)
  · rintro ⟨hx, before, after, rfl, hbefore, hafter⟩
    refine ⟨before.filter test, after.filter test, ?_, fun y hy => ?_, fun y hy => ?_⟩
    · rw [List.filter_append, List.filter_cons_of_pos hx]
    · exact hbefore y (List.mem_filter.mp hy).1 (List.mem_filter.mp hy).2
    · exact hafter y (List.mem_filter.mp hy).1 (List.mem_filter.mp hy).2

/-! ## Sorting -/

theorem pairwise_placeBefore (x : β) {ys : List β} (hys : ys.Pairwise fun a b => le a b = true) :
    (placeBefore le x ys).Pairwise fun a b => le a b = true := by
  induction ys with
  | nil => exact List.pairwise_singleton _ x
  | cons y ys ih =>
    obtain ⟨hy, htail⟩ := List.pairwise_cons.mp hys
    unfold placeBefore
    split
    case isTrue hxy =>
      refine List.pairwise_cons.mpr ⟨fun z hz => ?_, hys⟩
      rcases List.mem_cons.mp hz with rfl | hz
      · exact hxy
      · exact htrans x y z hxy (hy z hz)
    case isFalse hxy =>
      refine List.pairwise_cons.mpr ⟨fun z hz => ?_, ih htail⟩
      rcases List.mem_cons.mp ((perm_placeBefore le x ys).mem_iff.mp hz) with rfl | hz
      · exact (htotal z y).resolve_left hxy
      · exact hy z hz

theorem pairwise_stableSort (xs : List β) :
    (stableSort le xs).Pairwise fun a b => le a b = true := by
  induction xs with
  | nil => exact .nil
  | cons x xs ih => exact pairwise_placeBefore htotal htrans x ih

omit htotal in
/-- An element that passes a test is placed among those that do as it is among all. -/
theorem filter_placeBefore (hx : test x = true) (hys : ys.Pairwise fun a b => le a b = true) :
    (placeBefore le x ys).filter test = placeBefore le x (ys.filter test) := by
  induction ys with
  | nil => rw [placeBefore, List.filter_cons_of_pos hx, List.filter_nil, placeBefore]
  | cons y ys ih =>
    obtain ⟨hy, htail⟩ := List.pairwise_cons.mp hys
    rw [placeBefore]
    split
    case isTrue hxy =>
      have hall : ∀ z ∈ y :: ys, le x z = true :=
        List.forall_mem_cons.mpr ⟨hxy, fun z hz => htrans x y z hxy (hy z hz)⟩
      rw [List.filter_cons_of_pos hx,
        placeBefore_of_forall fun z hz => hall z (List.mem_filter.mp hz).1]
    case isFalse hxy =>
      cases hpass : test y with
      | false =>
        have hfails := ne_true_of_eq_false hpass
        rw [List.filter_cons_of_neg hfails, List.filter_cons_of_neg hfails, ih htail]
      | true =>
        rw [List.filter_cons_of_pos hpass, List.filter_cons_of_pos hpass, placeBefore, if_neg hxy,
          ih htail]

/-- What passes a test is sorted as if there were nothing else. -/
theorem filter_stableSort (test : β → Bool) (xs : List β) :
    (stableSort le xs).filter test = stableSort le (xs.filter test) := by
  induction xs with
  | nil => rfl
  | cons x xs ih =>
    rw [stableSort]
    cases hx : test x with
    | false => rw [filter_placeBefore_of_neg hx, ih, List.filter_cons_of_neg (by simp [hx])]
    | true =>
      rw [filter_placeBefore htrans hx (pairwise_stableSort htotal htrans xs), ih,
        List.filter_cons_of_pos hx, stableSort]

omit htotal in
/-- An element is placed behind all others if it may not precede the last one. -/
theorem getLast?_placeBefore (x : β) (hys : ys.Pairwise fun a b => le a b = true) :
    (placeBefore le x ys).getLast?
      = some (ys.getLast?.elim x fun y => if le x y then y else x) := by
  induction ys with
  | nil => rfl
  | cons y ys ih =>
    obtain ⟨hy, htail⟩ := List.pairwise_cons.mp hys
    rw [placeBefore]
    split
    case isTrue hxy =>
      have hall : ∀ z ∈ y :: ys, le x z = true :=
        List.forall_mem_cons.mpr ⟨hxy, fun z hz => htrans x y z hxy (hy z hz)⟩
      have hlast := List.getLast?_eq_some_getLast (List.cons_ne_nil y ys)
      rw [List.getLast?_cons_cons, hlast, Option.elim_some, if_pos (hall _ (List.getLast_mem _))]
    case isFalse hxy =>
      rw [List.getLast?_cons, ih htail, List.getLast?_cons]
      cases ys.getLast? with
      | none => simp [hxy]
      | some z => rfl

/-- Sorting puts the last of the greatest elements last. -/
theorem getLast?_stableSort (xs : List β) : (stableSort le xs).getLast? = greatest? le xs := by
  induction xs with
  | nil => rfl
  | cons x xs ih =>
    rw [stableSort, getLast?_placeBefore htrans x (pairwise_stableSort htotal htrans xs), ih,
      greatest?, least?]
    cases least? (fun x y => !le x y) xs with
    | none => rfl
    | some y => cases hxy : le x y <;> simp [hxy]

end

theorem inOrder_total [Ord β] [Std.OrientedOrd β] (x y : β) :
    inOrder x y = true ∨ inOrder y x = true := by
  unfold inOrder
  rw [Std.OrientedOrd.eq_swap (a := y)]
  cases compare x y <;> simp

theorem inOrder_trans [Ord β] [Std.TransOrd β] (x y z : β) (hxy : inOrder x y = true)
    (hyz : inOrder y z = true) : inOrder x z = true :=
  Std.TransCmp.isLE_trans hxy hyz

/-! ## Searching -/

theorem exists_append_of_drop {n : Nat} {middle : β} {behind : List β}
    (h : xs.drop n = middle :: behind) :
    ∃ front, front.length = n ∧ xs = front ++ middle :: behind := by
  refine ⟨xs.take n, ?_, by rw [← h, List.take_append_drop]⟩
  have hlength := length_of_drop_eq_cons h
  rw [List.length_take]
  omega

/-- If no element that fails a test comes before one that passes, the search finds the end of those
that pass. -/
theorem take_partitionPoint (h : xs.Pairwise fun x y => test y = true → test x = true) :
    xs.take (partitionPoint test xs) = xs.filter test := by
  fun_induction partitionPoint test xs with
  | case1 xs hdrop =>
    have hlength := List.drop_eq_nil_iff.mp hdrop
    obtain rfl : xs = [] := List.length_eq_zero_iff.mp (by omega)
    rfl
  | case2 xs middle behind hdrop hmiddle ih =>
    -- all elements before the middle one pass as it does
    obtain ⟨front, hfront, rfl⟩ := exists_append_of_drop hdrop
    obtain ⟨-, hbehind, hbefore⟩ := List.pairwise_append.mp h
    have hpass : front.filter test = front :=
      List.filter_eq_self.mpr fun x hx => hbefore x hx middle List.mem_cons_self hmiddle
    rw [← hfront, Nat.add_assoc, List.take_length_add_append, Nat.add_comm 1, List.take_succ_cons,
      ih (List.pairwise_cons.mp hbehind).2, List.filter_append, hpass,
      List.filter_cons_of_pos hmiddle]
  | case3 xs middle behind hdrop hmiddle ih =>
    -- none of the elements behind the middle one passes, or it would
    obtain ⟨front, hfront, rfl⟩ := exists_append_of_drop hdrop
    obtain ⟨hfirst, hbehind, -⟩ := List.pairwise_append.mp h
    have hfail : (middle :: behind).filter test = [] :=
      List.filter_eq_nil_iff.mpr <| List.forall_mem_cons.mpr
        ⟨hmiddle, fun x hx hpass => hmiddle ((List.pairwise_cons.mp hbehind).1 x hx hpass)⟩
    rw [← hfront, List.take_left] at ih ⊢
    rw [List.take_append_of_le_length (partitionPoint_le_length test front), ih hfirst,
      List.filter_append, hfail, List.append_nil]

end Datacenter
