import Datacenter.IdMap

/-!
# Laws of maps and sets over ids

`IdMap.find?` is the one view of a map: every change of a map is described by the look-ups after it
(`Datacenter/IdMap.lean`). This module adds the Boolean view `IdMap.contains`, the lists of keys and
values, and `IdSet`. Changes at one id supersede one another, and changes at different ids may be
made in any order (`ChangesAt.comm`). `toList_insert_perm` and `toList_erase_perm` say which entry a
change adds to or takes from the list of entries, for sums over all of them.
-/

namespace Datacenter

namespace IdMap

variable {β γ : Type}

@[simp] theorem find?_emptyc (k : Nat) : (∅ : IdMap β).find? k = none := rfl

@[simp] theorem contains_emptyc (k : Nat) : (∅ : IdMap β).contains k = false := rfl

theorem contains_eq_isSome (m : IdMap β) (k : Nat) : m.contains k = (m.find? k).isSome := rfl

theorem contains_iff {m : IdMap β} {k : Nat} : m.contains k = true ↔ ∃ v, m.find? k = some v :=
  Option.isSome_iff_exists

@[simp] theorem contains_insert (m : IdMap β) (k : Nat) (v : β) (j : Nat) :
    (m.insert k v).contains j = (decide (j = k) || m.contains j) := by
  rw [contains_eq_isSome, find?_insert, contains_eq_isSome]
  by_cases h : j = k <;> simp [h]

@[simp] theorem contains_erase (m : IdMap β) (k j : Nat) :
    (m.erase k).contains j = (!decide (j = k) && m.contains j) := by
  rw [contains_eq_isSome, find?_erase, contains_eq_isSome]
  by_cases h : j = k <;> simp [h]

@[simp] theorem contains_map (f : Nat → β → γ) (m : IdMap β) (k : Nat) :
    (m.map f).contains k = m.contains k := by
  rw [contains_eq_isSome, find?_map, Option.isSome_map, contains_eq_isSome]

@[simp] theorem contains_modify (m : IdMap β) (k : Nat) (f : β → β) (j : Nat) :
    (m.modify k f).contains j = m.contains j :=
  contains_map ..

/-- The ids with a value are listed once each, in increasing order. -/
theorem nodup_keys (m : IdMap β) : m.keys.Nodup :=
  List.pairwise_map.mpr (m.sorted.imp fun h => Nat.ne_of_lt h)

theorem find?_filter (m : IdMap β) (q : Nat → β → Bool) (k : Nat) :
    (m.filter q).find? k = (m.find? k).filter (q k) := by
  apply Option.ext
  intro v
  rw [find?_eq_some_iff, filter, List.mem_filter, Option.filter_eq_some_iff, find?_eq_some_iff]

theorem mem_keys_iff {m : IdMap β} {k : Nat} : k ∈ m.keys ↔ m.contains k = true := by
  rw [contains_iff]
  constructor
  · intro h
    obtain ⟨e, he, rfl⟩ := List.mem_map.mp h
    exact ⟨e.2, find?_eq_some_iff.mpr he⟩
  · rintro ⟨v, hv⟩
    exact List.mem_map.mpr ⟨(k, v), find?_eq_some_iff.mp hv, rfl⟩

theorem mem_values_iff {m : IdMap β} {v : β} : v ∈ m.values ↔ ∃ k, m.find? k = some v := by
  constructor
  · intro h
    obtain ⟨e, he, rfl⟩ := List.mem_map.mp h
    exact ⟨e.1, find?_eq_some_iff.mpr he⟩
  · rintro ⟨k, hk⟩
    exact List.mem_map.mpr ⟨(k, v), find?_eq_some_iff.mp hk, rfl⟩

theorem isEmpty_iff {m : IdMap β} : m.isEmpty = true ↔ ∀ k, m.contains k = false := by
  constructor
  · intro h k
    have hnil : m.toList = [] := List.isEmpty_iff.mp h
    simp [contains_eq_isSome, find?, hnil]
  · intro h
    cases hl : m.toList with
    | nil => simp [isEmpty, hl]
    | cons e es =>
      have hmem : (e.1, e.2) ∈ m.toList := by simp [hl]
      have := h e.1
      rw [contains_eq_isSome, find?_eq_some_iff.mpr hmem] at this
      exact absurd this (by simp)

/-! ## One change after the other -/

/-- Erasing an absent key changes nothing. -/
theorem erase_of_find?_eq_none {m : IdMap β} {k : Nat} (h : m.find? k = none) : m.erase k = m :=
  ext_find? fun j => by
    rw [find?_erase]
    split
    · rename_i hj
      rw [hj, h]
    · rfl

/-- Inserting what is there already changes nothing. -/
theorem insert_of_find?_eq_some {m : IdMap β} {k : Nat} {v : β} (h : m.find? k = some v) :
    m.insert k v = m :=
  ext_find? fun j => by
    rw [find?_insert]
    split
    · rename_i hj
      rw [hj, h]
    · rfl

theorem insert_insert (m : IdMap β) (k : Nat) (v w : β) :
    (m.insert k v).insert k w = m.insert k w :=
  ext_find? fun j => by
    rw [find?_insert, find?_insert, find?_insert]
    split <;> rfl

theorem insert_erase (m : IdMap β) (k : Nat) (v : β) : (m.erase k).insert k v = m.insert k v :=
  ext_find? fun j => by
    rw [find?_insert, find?_insert, find?_erase]
    split <;> rfl

theorem erase_insert (m : IdMap β) (k : Nat) (v : β) : (m.insert k v).erase k = m.erase k :=
  ext_find? fun j => by
    rw [find?_erase, find?_erase, find?_insert]
    split <;> rfl

theorem insert_modify (m : IdMap β) (k : Nat) (f : β → β) (v : β) :
    (m.modify k f).insert k v = m.insert k v :=
  ext_find? fun j => by
    rw [find?_insert, find?_insert, find?_modify]
    split <;> rfl

theorem modify_insert (m : IdMap β) (k : Nat) (v : β) (f : β → β) :
    (m.insert k v).modify k f = m.insert k (f v) :=
  ext_find? fun j => by
    rw [find?_modify, find?_insert, find?_insert]
    split <;> rfl

/-- What is added where nothing was can be taken away again. -/
theorem erase_insert_self {m : IdMap β} {k : Nat} (h : m.find? k = none) (v : β) :
    (m.insert k v).erase k = m := by
  rw [erase_insert, erase_of_find?_eq_none h]

/-- A change of maps that concerns one id only. -/
def ChangesAt (c : IdMap β → IdMap β) (a : Nat) : Prop :=
  ∃ f : Option β → Option β, ∀ m k, (c m).find? k = if k = a then f (m.find? k) else m.find? k

theorem changesAt_insert (a : Nat) (v : β) : ChangesAt (·.insert a v) a :=
  ⟨fun _ => some v, fun m k => find?_insert m a v k⟩

theorem changesAt_erase (a : Nat) : ChangesAt (β := β) (·.erase a) a :=
  ⟨fun _ => none, fun m k => find?_erase m a k⟩

theorem changesAt_modify (a : Nat) (f : β → β) : ChangesAt (·.modify a f) a :=
  ⟨Option.map f, fun m k => find?_modify m a f k⟩

/-- Changes at different ids may be made in any order. -/
theorem ChangesAt.comm {c d : IdMap β → IdMap β} {a b : Nat} (hc : ChangesAt c a)
    (hd : ChangesAt d b) (hab : a ≠ b) (m : IdMap β) : d (c m) = c (d m) := by
  obtain ⟨f, hf⟩ := hc
  obtain ⟨g, hg⟩ := hd
  apply ext_find?
  intro k
  rw [hg, hf, hf, hg]
  by_cases hk : k = b
  · rw [if_pos hk, if_neg fun ha => hab (ha.symm.trans hk), if_pos hk,
      if_neg fun ha => hab (ha.symm.trans hk)]
  · rw [if_neg hk, if_neg hk]

/-! ## Entries gained and lost -/

theorem insertEntry_perm {k : Nat} {v : β} :
    ∀ {es : List (Nat × β)}, (∀ e ∈ es, e.1 ≠ k) → (insertEntry k v es).Perm ((k, v) :: es)
  | [], _ => .refl _
  | e :: es, h => by
    have hne : k ≠ e.1 := fun hk => h e List.mem_cons_self hk.symm
    have ih := insertEntry_perm (v := v) fun e' he' => h e' (List.mem_cons_of_mem _ he')
    unfold insertEntry
    split
    · exact .refl _
    · exact (ih.cons e).trans (.swap ..)

/-- A new key adds one entry. -/
theorem toList_insert_perm {m : IdMap β} {k : Nat} (h : m.find? k = none) (v : β) :
    (m.insert k v).toList.Perm ((k, v) :: m.toList) := by
  apply insertEntry_perm
  intro e he hk
  have hfind : m.find? k = some e.2 := find?_eq_some_iff.mpr (hk ▸ he)
  rw [h] at hfind
  contradiction

/-- Erasing a key takes its one entry away. -/
theorem toList_erase_perm {m : IdMap β} {k : Nat} {v : β} (h : m.find? k = some v) :
    m.toList.Perm ((k, v) :: (m.erase k).toList) := by
  -- an erasure is an insertion read backwards, so the permutation of the insertion serves
  have hback : (m.erase k).insert k v = m := by rw [insert_erase, insert_of_find?_eq_some h]
  have hnone : (m.erase k).find? k = none := by rw [find?_erase, if_pos rfl]
  have hperm := toList_insert_perm hnone v
  rwa [hback] at hperm

end IdMap

namespace IdSet

@[simp] theorem contains_add (s : IdSet) (k j : Nat) :
    (s.add k).contains j = (decide (j = k) || s.contains j) :=
  IdMap.contains_insert ..

theorem contains_foldl_add {k : Nat} (ks : List Nat) (s : IdSet) :
    (ks.foldl add s).contains k = true ↔ k ∈ ks ∨ s.contains k = true := by
  induction ks generalizing s with
  | nil => simp
  | cons j js ih =>
    rw [List.foldl_cons, ih]
    simp only [contains_add, Bool.or_eq_true, decide_eq_true_eq, List.mem_cons]
    rw [or_left_comm, or_assoc]

@[simp] theorem contains_ofList {ks : List Nat} {k : Nat} :
    (ofList ks).contains k = true ↔ k ∈ ks := by
  simp [ofList, contains_foldl_add]

@[simp] theorem contains_ofList_eq_false {ks : List Nat} {k : Nat} :
    (ofList ks).contains k = false ↔ k ∉ ks := by
  rw [Bool.eq_false_iff, ne_eq, contains_ofList]

end IdSet

end Datacenter
