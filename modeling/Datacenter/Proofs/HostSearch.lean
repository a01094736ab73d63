import Datacenter.HostSearch
import Datacenter.Proofs.Binary64.Order
import Mathlib.Data.List.Perm.Basic

/-!
# What a search finds

Candidates are compared by key first, and of equal keys the lower id is the better one
(`candidateOrder`). Whenever the keys are totally ordered this is a total order in which candidates
that are equally good have the same id. So it does not matter how a search goes through the items:
it may compare them in any order and in any groups, and of equally good candidates it may keep
either.

`Tournament` is such a way to go through the items, and `IsMaximum` a way to compare two candidates.
`IsTop` is what every tournament ends with, and `findMax_eq_some_iff` says what that is in terms of
the items: the lowest id among those whose key is the greatest. Going through the items one after
the other, or by halves, are particular tournaments. `Search.IsTournament` says of a search that it
is some tournament for all items, and all such searches are the same function.
-/

namespace Datacenter

open Std

/-! ## Orders -/

instance {κ : Type} [Ord κ] [TransOrd κ] : TransOrd (HostRank κ) :=
  inferInstanceAs (TransCmp (compareLex (compareOn HostRank.isActive) (compareOn HostRank.score)))

instance : TransOrd Fewest :=
  inferInstanceAs (TransCmp fun a b => compareOn Fewest.count b a)

namespace HostSearch

variable {κ β : Type} [Ord κ] {pick : κ × Nat → κ × Nat → κ × Nat} {a b c : κ × Nat}

/-- The order of candidates. The better one has the greater key, or an equal one and the lower
id. -/
def candidateOrder (a b : κ × Nat) : Ordering :=
  (compare a.1 b.1).then (compare b.2 a.2)

instance [TransOrd κ] : TransCmp (@candidateOrder κ _) :=
  inferInstanceAs (TransCmp (compareLex (compareOn Prod.fst) fun a b => compareOn Prod.snd b a))

theorem candidateOrder_isLE :
    (candidateOrder a b).isLE = true
      ↔ (compare a.1 b.1).isLE = true ∧ (compare a.1 b.1 = .eq → b.2 ≤ a.2) := by
  unfold candidateOrder
  cases compare a.1 b.1 with
  | lt => simp
  | gt => simp
  | eq => simp [Nat.isLE_compare]

/-- Candidates that are equally good have the same id. -/
theorem snd_eq_of_isLE [TransOrd κ] (hab : (candidateOrder a b).isLE = true)
    (hba : (candidateOrder b a).isLE = true) : a.2 = b.2 := by
  have heq : candidateOrder a b = .eq := OrientedCmp.isLE_antisymm hab hba
  exact (Nat.compare_eq_eq.mp (Ordering.then_eq_eq.mp heq).2).symm

/-! ## Comparing -/

/-- A way to pick the better one of two candidates. Which of two equally good ones it picks is left
open. -/
def IsMaximum (pick : κ × Nat → κ × Nat → κ × Nat) : Prop :=
  ∀ a b, pick a b = a ∧ (candidateOrder b a).isLE = true
    ∨ pick a b = b ∧ (candidateOrder a b).isLE = true

theorem isMaximum_better [TransOrd κ] : IsMaximum (@better κ _) := by
  intro a b
  unfold better
  cases hkey : compare a.1 b.1 with
  | lt => exact .inr ⟨rfl, candidateOrder_isLE.mpr (by simp [hkey])⟩
  | gt =>
    have hkey' : compare b.1 a.1 = .lt := OrientedCmp.lt_of_gt hkey
    exact .inl ⟨rfl, candidateOrder_isLE.mpr (by simp [hkey'])⟩
  | eq =>
    have hkey' : compare b.1 a.1 = .eq := OrientedCmp.eq_symm hkey
    show (if b.2 < a.2 then b else a) = a ∧ _ ∨ _
    by_cases hid : b.2 < a.2
    · rw [if_pos hid]
      exact .inr ⟨rfl, candidateOrder_isLE.mpr (by simp [hkey, Nat.le_of_lt hid])⟩
    · rw [if_neg hid]
      exact .inl ⟨rfl, candidateOrder_isLE.mpr (by simp [hkey', Nat.le_of_not_lt hid])⟩

/-- The better one of two candidates, and the second one of equally good ones. -/
def later (a b : κ × Nat) : κ × Nat :=
  if candidateOrder a b = .gt then a else b

theorem isMaximum_later [TransOrd κ] : IsMaximum (@later κ _) := by
  intro a b
  unfold later
  by_cases hgt : candidateOrder a b = .gt
  · rw [if_pos hgt]
    exact .inl ⟨rfl, Ordering.isLE_of_eq_lt (OrientedCmp.lt_of_gt hgt)⟩
  · rw [if_neg hgt]
    exact .inr ⟨rfl, Ordering.isLE_iff_ne_gt.mpr hgt⟩

/-- A candidate at least as good as all candidates; none if there are none. -/
def IsTop (candidates : List (κ × Nat)) : Option (κ × Nat) → Prop
  | none => candidates = []
  | some c => c ∈ candidates ∧ ∀ d ∈ candidates, (candidateOrder d c).isLE = true

theorem isTop_singleton [TransOrd κ] (c : κ × Nat) : IsTop [c] (some c) :=
  ⟨List.mem_singleton_self c, fun d hd => by
    rw [List.mem_singleton.mp hd]
    exact ReflCmp.isLE_rfl⟩

theorem IsTop.perm {candidates candidates' : List (κ × Nat)} {top : Option (κ × Nat)}
    (h : IsTop candidates top) (horder : candidates.Perm candidates') : IsTop candidates' top := by
  cases top with
  | none =>
    rw [show candidates = [] from h] at horder
    exact List.nil_perm.mp horder
  | some c => exact ⟨horder.mem_iff.mp h.1, fun d hd => h.2 d (horder.mem_iff.mpr hd)⟩

/-- Candidates determine the id of the best one. -/
theorem IsTop.id_unique [TransOrd κ] {candidates : List (κ × Nat)} {top top' : Option (κ × Nat)}
    (h : IsTop candidates top) (h' : IsTop candidates top') :
    top.map Prod.snd = top'.map Prod.snd := by
  cases top with
  | none =>
    obtain rfl : candidates = [] := h
    cases top' with
    | none => rfl
    | some c' => exact absurd h'.1 List.not_mem_nil
  | some c =>
    cases top' with
    | none =>
      obtain rfl : candidates = [] := h'
      exact absurd h.1 List.not_mem_nil
    | some c' => exact congrArg some (snd_eq_of_isLE (h'.2 c h.1) (h.2 c' h'.1))

/-- The better one of the best candidates of two groups is the best one of both groups. -/
theorem IsTop.merge [TransOrd κ] (hpick : IsMaximum pick) {left right : List (κ × Nat)}
    {l r : Option (κ × Nat)} (hl : IsTop left l) (hr : IsTop right r) :
    IsTop (left ++ right) (Option.merge pick l r) := by
  cases l with
  | none =>
    obtain rfl : left = [] := hl
    rw [Option.merge_none_left]
    exact hr
  | some a =>
    cases r with
    | none =>
      obtain rfl : right = [] := hr
      rw [List.append_nil, Option.merge_none_right]
      exact hl
    | some b =>
      rw [Option.merge_some_some]
      obtain ⟨ha, hleft⟩ := hl
      obtain ⟨hb, hright⟩ := hr
      rcases hpick a b with ⟨hwins, hle⟩ | ⟨hwins, hle⟩
      · rw [hwins]
        refine ⟨List.mem_append_left right ha, fun d hd => ?_⟩
        rcases List.mem_append.mp hd with hd | hd
        · exact hleft d hd
        · exact TransCmp.isLE_trans (hright d hd) hle
      · rw [hwins]
        refine ⟨List.mem_append_right left hb, fun d hd => ?_⟩
        rcases List.mem_append.mp hd with hd | hd
        · exact TransCmp.isLE_trans (hleft d hd) hle
        · exact hright d hd

/-! ## Tournaments -/

/-- A way to compare items with each other, group by group. -/
inductive Tournament (β : Type) where
  /-- Nobody takes part. -/
  | nobody
  /-- A single item takes part. -/
  | entrant (item : β)
  /-- The winners of two tournaments are compared. -/
  | round (left right : Tournament β)

namespace Tournament

/-- The items that take part, in the order in which they do. -/
def entrants : Tournament β → List β
  | nobody => []
  | entrant x => [x]
  | round left right => left.entrants ++ right.entrants

/-- The best candidate, where items without a key do not count. -/
def winner (pick : κ × Nat → κ × Nat → κ × Nat) (key : β → Option (κ × Nat)) :
    Tournament β → Option (κ × Nat)
  | nobody => none
  | entrant x => key x
  | round left right => Option.merge pick (left.winner pick key) (right.winner pick key)

/-- Every tournament is won by the best candidate. -/
theorem isTop_winner [TransOrd κ] (hpick : IsMaximum pick) (key : β → Option (κ × Nat))
    (t : Tournament β) : IsTop (t.entrants.filterMap key) (t.winner pick key) := by
  induction t with
  | nobody => rfl
  | entrant x =>
    cases hx : key x with
    | none =>
      rw [winner, hx, entrants, List.filterMap_cons_none hx]
      rfl
    | some c =>
      rw [winner, hx, entrants, List.filterMap_cons_some hx]
      exact isTop_singleton c
  | round left right ihl ihr =>
    rw [entrants, List.filterMap_append]
    exact ihl.merge hpick ihr

end Tournament

/-! ## The two searches -/

theorem better?_eq_merge (a b : Option (κ × Nat)) : better? a b = Option.merge better a b := by
  cases a <;> cases b <;> rfl

theorem isTop_bestInOrder [TransOrd κ] (candidates : List (κ × Nat)) :
    IsTop candidates (bestInOrder candidates) := by
  -- the best so far is the best one of those that have been compared
  have hfold : ∀ (rest seen : List (κ × Nat)) (best : Option (κ × Nat)), IsTop seen best →
      IsTop (seen ++ rest) (rest.foldl (fun best c => better? best (some c)) best) := by
    intro rest
    induction rest with
    | nil => exact fun seen best h => by rwa [List.append_nil]
    | cons c rest ih =>
      intro seen best h
      have hnext := ih (seen ++ [c]) (better? best (some c)) (by
        rw [better?_eq_merge]
        exact h.merge isMaximum_better (isTop_singleton c))
      rwa [List.append_assoc] at hnext
  exact hfold candidates [] none rfl

theorem isTop_bestByHalves [TransOrd κ] (candidates : List (κ × Nat)) :
    IsTop candidates (bestByHalves candidates) := by
  fun_induction bestByHalves candidates with
  | case1 candidates hshort =>
    match candidates, hshort with
    | [], _ => rfl
    | [c], _ => exact isTop_singleton c
  | case2 candidates hlong half ihl ihr =>
    rw [better?_eq_merge]
    have htop := ihl.merge isMaximum_better ihr
    rwa [List.take_append_drop] at htop

/-- Both searches find the best candidate. -/
theorem exists_isTop_findMax [TransOrd κ] (s : HostSearch) (items : List β)
    (key : β → Option (κ × Nat)) :
    ∃ top, s.findMax items key = top.map Prod.snd ∧ IsTop (items.filterMap key) top := by
  refine ⟨_, rfl, ?_⟩
  split
  · exact isTop_bestByHalves _
  · exact isTop_bestInOrder _

/-! ## What is found -/

/-- An id of an item whose key is the greatest, and the lowest one of such ids. -/
def IsBest (items : List β) (key : β → Option (κ × Nat)) (id : Nat) : Prop :=
  ∃ x ∈ items, ∃ k, key x = some (k, id) ∧ ∀ y ∈ items, ∀ k' id', key y = some (k', id') →
    (compare k' k).isLE = true ∧ (compare k' k = .eq → id ≤ id')

theorem isBest_iff {items : List β} {key : β → Option (κ × Nat)} {id : Nat} :
    IsBest items key id ↔ ∃ k, IsTop (items.filterMap key) (some (k, id)) := by
  constructor
  · rintro ⟨x, hx, k, hkey, hbest⟩
    refine ⟨k, List.mem_filterMap.mpr ⟨x, hx, hkey⟩, fun d hd => ?_⟩
    obtain ⟨y, hy, hkey'⟩ := List.mem_filterMap.mp hd
    exact candidateOrder_isLE.mpr (hbest y hy d.1 d.2 hkey')
  · rintro ⟨k, hmem, htop⟩
    obtain ⟨x, hx, hkey⟩ := List.mem_filterMap.mp hmem
    refine ⟨x, hx, k, hkey, fun y hy k' id' hkey' => ?_⟩
    exact candidateOrder_isLE.mp (htop (k', id') (List.mem_filterMap.mpr ⟨y, hy, hkey'⟩))

theorem findMax_eq_none_iff [TransOrd κ] (s : HostSearch) (items : List β)
    (key : β → Option (κ × Nat)) : s.findMax items key = none ↔ ∀ x ∈ items, key x = none := by
  obtain ⟨top, hfound, htop⟩ := exists_isTop_findMax s items key
  rw [hfound, Option.map_eq_none_iff, ← List.filterMap_eq_nil_iff]
  constructor
  · rintro rfl
    exact htop
  · intro hnil
    cases top with
    | none => rfl
    | some c =>
      rw [hnil] at htop
      exact absurd htop.1 List.not_mem_nil

theorem findMax_eq_some_iff [TransOrd κ] (s : HostSearch) (items : List β)
    (key : β → Option (κ × Nat)) (id : Nat) :
    s.findMax items key = some id ↔ IsBest items key id := by
  obtain ⟨top, hfound, htop⟩ := exists_isTop_findMax s items key
  rw [hfound, isBest_iff]
  constructor
  · intro h
    obtain ⟨c, rfl, rfl⟩ := Option.map_eq_some_iff.mp h
    exact ⟨c.1, htop⟩
  · rintro ⟨k, hbest⟩
    exact htop.id_unique hbest

/-- Whoever wins a tournament among the items is found. -/
theorem winner_eq_findMax [TransOrd κ] (s : HostSearch) {items : List β}
    (key : β → Option (κ × Nat)) (hpick : IsMaximum pick) {t : Tournament β}
    (ht : t.entrants.Perm items) : (t.winner pick key).map Prod.snd = s.findMax items key := by
  obtain ⟨top, hfound, htop⟩ := exists_isTop_findMax s items key
  rw [hfound]
  exact ((t.isTop_winner hpick key).perm (ht.filterMap key)).id_unique htop

/-- How items are searched does not matter. -/
theorem findMax_eq [TransOrd κ] (s s' : HostSearch) :
    (s.findMax : Search κ β) = s'.findMax := by
  funext items key
  obtain ⟨top, hfound, htop⟩ := exists_isTop_findMax s items key
  obtain ⟨top', hfound', htop'⟩ := exists_isTop_findMax s' items key
  rw [hfound, hfound', htop.id_unique htop']

end HostSearch

namespace Search

variable {κ β : Type} [Ord κ]

/-- The search finds whoever wins a tournament among the items. Both the tournament and what it does
about equally good candidates may depend on the items. -/
def IsTournament (find : Search κ β) : Prop :=
  ∀ items key, ∃ pick, HostSearch.IsMaximum pick ∧ ∃ t : HostSearch.Tournament β,
    t.entrants.Perm items ∧ find items key = (t.winner pick key).map Prod.snd

/-- Tournaments find what searches find that go through the items one after the other. -/
theorem IsTournament.eq_findMax [TransOrd κ] {find : Search κ β} (hfind : find.IsTournament)
    (s : HostSearch) : find = s.findMax := by
  funext items key
  obtain ⟨pick, hpick, t, ht, hfound⟩ := hfind items key
  rw [hfound, s.winner_eq_findMax key hpick ht]

/-- The search that goes through the items from the last one to the first one, and keeps the later
one of equally good candidates. -/
def backwards : Search κ β := fun items key =>
  let last := items.foldl (fun t x => .round (.entrant x) t) HostSearch.Tournament.nobody
  (last.winner HostSearch.later key).map Prod.snd

theorem isTournament_backwards [TransOrd κ] : (backwards : Search κ β).IsTournament := by
  intro items key
  refine ⟨_, HostSearch.isMaximum_later, _, ?_, rfl⟩
  -- the items that have been passed take part in the opposite order
  have hfold : ∀ (t : HostSearch.Tournament β),
      (items.foldl (fun t x => .round (.entrant x) t) t).entrants = items.reverse ++ t.entrants := by
    induction items with
    | nil => exact fun t => rfl
    | cons x items ih =>
      intro t
      rw [List.foldl_cons, ih, List.reverse_cons, List.append_assoc]
      rfl
  rw [hfold, HostSearch.Tournament.entrants, List.append_nil]
  exact List.reverse_perm items

end Search

end Datacenter
