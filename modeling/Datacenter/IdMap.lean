/-!
# Maps and sets over ids

`IdMap β` is a finite map from ids (natural numbers) to values of `β`, kept as the list of its
entries in increasing order of the ids. The order is part of the type, so

* two maps with the same look-ups are equal (`IdMap.ext_find?`);
* walking over a map visits the ids from the smallest one on, however the map came about.

`IdSet` is the set of ids, a map to the unit type.
-/

namespace Datacenter

/-- A finite map from ids to values: its entries in strictly increasing order of the ids. -/
structure IdMap (β : Type) where
  /-- The entries, by increasing id. -/
  toList : List (Nat × β)
  /-- Ids increase along the list. -/
  sorted : toList.Pairwise (fun a b => a.1 < b.1)

namespace IdMap

variable {β γ : Type}

instance [DecidableEq β] : DecidableEq (IdMap β) := fun m n =>
  decidable_of_iff (m.toList = n.toList)
    ⟨fun h => by cases m; cases n; cases h; rfl, fun h => h ▸ rfl⟩

/-- The map without entries. -/
def empty : IdMap β := ⟨[], .nil⟩

instance : EmptyCollection (IdMap β) := ⟨empty⟩
instance : Inhabited (IdMap β) := ⟨empty⟩

/-- The value of an id. -/
def find? (m : IdMap β) (k : Nat) : Option β :=
  (m.toList.find? (fun e => e.1 == k)).map Prod.snd

/-- Whether an id has a value. -/
def contains (m : IdMap β) (k : Nat) : Bool :=
  (m.find? k).isSome

/-- The ids with a value, in increasing order. -/
def keys (m : IdMap β) : List Nat :=
  m.toList.map Prod.fst

/-- The values, by increasing id. -/
def values (m : IdMap β) : List β :=
  m.toList.map Prod.snd

/-- The number of entries. -/
def size (m : IdMap β) : Nat :=
  m.toList.length

/-- Whether there are no entries. -/
def isEmpty (m : IdMap β) : Bool :=
  m.toList.isEmpty

/-! ## Changing one entry -/

/-- Puts an entry at its place in a list ordered by ids, in place of the entry with its id. -/
def insertEntry (k : Nat) (v : β) : List (Nat × β) → List (Nat × β)
  | [] => [(k, v)]
  | e :: es =>
    if k < e.1 then (k, v) :: e :: es
    else if k = e.1 then (k, v) :: es
    else e :: insertEntry k v es

theorem mem_insertEntry {k : Nat} {v : β} {x : Nat × β} :
    ∀ {es : List (Nat × β)}, x ∈ insertEntry k v es → x = (k, v) ∨ x ∈ es
  | [], h => by simpa [insertEntry] using h
  | e :: es, h => by
    unfold insertEntry at h
    split at h
    · simpa using h
    · split at h
      · rcases List.mem_cons.mp h with h | h
        · exact .inl h
        · exact .inr (List.mem_cons_of_mem _ h)
      · rcases List.mem_cons.mp h with h | h
        · exact .inr (h ▸ List.mem_cons_self)
        · rcases mem_insertEntry h with h | h
          · exact .inl h
          · exact .inr (List.mem_cons_of_mem _ h)

theorem pairwise_insertEntry (k : Nat) (v : β) :
    ∀ {es : List (Nat × β)}, es.Pairwise (fun a b => a.1 < b.1) →
      (insertEntry k v es).Pairwise (fun a b => a.1 < b.1)
  | [], _ => by simp [insertEntry]
  | e :: es, h => by
    obtain ⟨he, hes⟩ := List.pairwise_cons.mp h
    unfold insertEntry
    split
    · rename_i hk
      refine List.pairwise_cons.mpr ⟨fun x hx => ?_, h⟩
      rcases List.mem_cons.mp hx with hx | hx
      · exact hx ▸ hk
      · exact Nat.lt_trans hk (he x hx)
    · split
      · rename_i hk
        exact List.pairwise_cons.mpr ⟨fun x hx => hk ▸ he x hx, hes⟩
      · rename_i hk hne
        refine List.pairwise_cons.mpr ⟨fun x hx => ?_, pairwise_insertEntry k v hes⟩
        rcases mem_insertEntry hx with hx | hx
        · subst hx; exact Nat.lt_of_le_of_ne (Nat.not_lt.mp hk) (fun h => hne h.symm)
        · exact he x hx

/-- The map that gives `v` to `k` and agrees with `m` elsewhere. -/
def insert (m : IdMap β) (k : Nat) (v : β) : IdMap β :=
  ⟨insertEntry k v m.toList, pairwise_insertEntry k v m.sorted⟩

/-- Keeps the entries that pass a test. -/
def filter (m : IdMap β) (p : Nat → β → Bool) : IdMap β :=
  ⟨m.toList.filter (fun e => p e.1 e.2), m.sorted.filter _⟩

/-- The map without a value for `k`. -/
def erase (m : IdMap β) (k : Nat) : IdMap β :=
  m.filter (fun k' _ => k' != k)

/-- Applies a function to every value. -/
def map (f : Nat → β → γ) (m : IdMap β) : IdMap γ :=
  ⟨m.toList.map (fun e => (e.1, f e.1 e.2)), List.pairwise_map.mpr m.sorted⟩

/-- Applies a function to the value of `k`, if there is one. -/
def modify (m : IdMap β) (k : Nat) (f : β → β) : IdMap β :=
  m.map (fun k' v => if k' = k then f v else v)

/-! ## Look-ups after a change -/

theorem find?_insertEntry (k : Nat) (v : β) (j : Nat) :
    ∀ {es : List (Nat × β)}, es.Pairwise (fun a b => a.1 < b.1) →
      ((insertEntry k v es).find? (fun e => e.1 == j)).map Prod.snd =
        if j = k then some v else (es.find? (fun e => e.1 == j)).map Prod.snd
  | [], _ => by
    by_cases h : j = k
    · simp [insertEntry, h]
    · simp [insertEntry, h, Ne.symm h]
  | e :: es, hs => by
    obtain ⟨he, hes⟩ := List.pairwise_cons.mp hs
    unfold insertEntry
    by_cases hj : j = k
    · subst hj
      rw [if_pos rfl]
      split
      · simp
      · split
        · simp
        · rename_i hk hne
          rw [List.find?_cons_of_neg (by simpa using fun h => hne h.symm),
            find?_insertEntry j v j hes, if_pos rfl]
    · rw [if_neg hj]
      split
      · rw [List.find?_cons_of_neg (by simpa using fun h => hj h.symm)]
      · split
        · rename_i hk hke
          rw [List.find?_cons_of_neg (by simpa using fun h => hj h.symm),
            List.find?_cons_of_neg (by simpa [← hke] using fun h => hj h.symm)]
        · by_cases hej : e.1 = j
          · rw [List.find?_cons_of_pos (by simpa using hej),
              List.find?_cons_of_pos (by simpa using hej)]
          · rw [List.find?_cons_of_neg (by simpa using hej),
              List.find?_cons_of_neg (by simpa using hej), find?_insertEntry k v j hes, if_neg hj]

@[simp] theorem find?_empty (k : Nat) : (empty : IdMap β).find? k = none := rfl

@[simp] theorem find?_insert (m : IdMap β) (k : Nat) (v : β) (j : Nat) :
    (m.insert k v).find? j = if j = k then some v else m.find? j :=
  find?_insertEntry k v j m.sorted

/-- An id has at most one entry. -/
theorem eq_of_mem {a b : Nat × β} :
    ∀ {es : List (Nat × β)}, es.Pairwise (fun a b => a.1 < b.1) → a ∈ es → b ∈ es → a.1 = b.1 →
      a = b
  | e :: es, hs, ha, hb, hab => by
    obtain ⟨he, hes⟩ := List.pairwise_cons.mp hs
    rcases List.mem_cons.mp ha with ha | ha <;> rcases List.mem_cons.mp hb with hb | hb
    · rw [ha, hb]
    · exact absurd (he b hb) (by rw [← hab, ha]; exact Nat.lt_irrefl _)
    · exact absurd (he a ha) (by rw [hab, hb]; exact Nat.lt_irrefl _)
    · exact eq_of_mem hes ha hb hab

theorem find?_eq_some_iff {m : IdMap β} {k : Nat} {v : β} :
    m.find? k = some v ↔ (k, v) ∈ m.toList := by
  unfold find?
  constructor
  · intro h
    obtain ⟨e, he, rfl⟩ := Option.map_eq_some_iff.mp h
    have hk : e.1 = k := by simpa using List.find?_some he
    exact hk ▸ List.mem_of_find?_eq_some he
  · intro h
    cases hf : m.toList.find? (fun e => e.1 == k) with
    | none => exact absurd (List.find?_eq_none.mp hf _ h) (by simp)
    | some e =>
      have hk : e.1 = k := by simpa using List.find?_some hf
      have hmem := List.mem_of_find?_eq_some hf
      have : e = (k, v) := eq_of_mem m.sorted hmem h hk
      simp [this]

/-- Two maps with the same look-ups are equal. -/
theorem ext_find? {m n : IdMap β} (h : ∀ k, m.find? k = n.find? k) : m = n := by
  have hmem : ∀ x, x ∈ m.toList ↔ x ∈ n.toList := fun x => by
    rw [← find?_eq_some_iff (k := x.1) (v := x.2), ← find?_eq_some_iff (k := x.1) (v := x.2), h]
  have key : ∀ (l l' : List (Nat × β)), l.Pairwise (fun a b => a.1 < b.1) →
      l'.Pairwise (fun a b => a.1 < b.1) → (∀ x, x ∈ l ↔ x ∈ l') → l = l' := by
    intro l
    induction l with
    | nil =>
      intro l' _ _ hx
      cases l' with
      | nil => rfl
      | cons e es => exact absurd ((hx e).mpr List.mem_cons_self) (by simp)
    | cons a as ih =>
      intro l' hl hl' hx
      cases l' with
      | nil => exact absurd ((hx a).mp List.mem_cons_self) (by simp)
      | cons b bs =>
        obtain ⟨ha, has⟩ := List.pairwise_cons.mp hl
        obtain ⟨hb, hbs⟩ := List.pairwise_cons.mp hl'
        have hab : a = b := by
          rcases List.mem_cons.mp ((hx a).mp List.mem_cons_self) with h1 | h1
          · exact h1
          · rcases List.mem_cons.mp ((hx b).mpr List.mem_cons_self) with h2 | h2
            · exact h2.symm
            · exact absurd (Nat.lt_trans (hb a h1) (ha b h2)) (Nat.lt_irrefl _)
        subst hab
        refine congrArg _ (ih bs has hbs fun x => ⟨fun hm => ?_, fun hm => ?_⟩)
        · rcases List.mem_cons.mp ((hx x).mp (List.mem_cons_of_mem _ hm)) with h1 | h1
          · exact absurd (h1 ▸ ha x hm) (Nat.lt_irrefl _)
          · exact h1
        · rcases List.mem_cons.mp ((hx x).mpr (List.mem_cons_of_mem _ hm)) with h1 | h1
          · exact absurd (h1 ▸ hb x hm) (Nat.lt_irrefl _)
          · exact h1
  have := key m.toList n.toList m.sorted n.sorted hmem
  cases m; cases n; cases this; rfl

theorem find?_map (f : Nat → β → γ) (m : IdMap β) (k : Nat) :
    (m.map f).find? k = (m.find? k).map (f k) := by
  unfold find? map
  simp only [List.find?_map, Function.comp_def, Option.map_map]
  cases hf : m.toList.find? (fun e => e.1 == k) with
  | none => rfl
  | some e =>
    have hk : e.1 = k := by simpa using List.find?_some hf
    simp [hk]

theorem find?_modify (m : IdMap β) (k : Nat) (f : β → β) (j : Nat) :
    (m.modify k f).find? j = if j = k then (m.find? j).map f else m.find? j := by
  rw [modify, find?_map]
  split
  · simp
  · simp

theorem find?_erase (m : IdMap β) (k j : Nat) :
    (m.erase k).find? j = if j = k then none else m.find? j := by
  unfold find? erase filter
  rw [List.find?_filter]
  by_cases h : j = k
  · subst h
    rw [if_pos rfl, List.find?_eq_none.mpr (by simp)]
    rfl
  · rw [if_neg h]
    refine congrArg _ (congrArg (fun p => m.toList.find? p) (funext fun e => ?_))
    by_cases he : e.1 = j
    · simp [he, h]
    · simp [he]

end IdMap

/-- A finite set of ids. -/
abbrev IdSet := IdMap Unit

namespace IdSet

/-- The set with one more id. -/
def add (s : IdSet) (k : Nat) : IdSet :=
  s.insert k ()

/-- The set of the ids in a list. -/
def ofList (ks : List Nat) : IdSet :=
  ks.foldl add ∅

end IdSet

end Datacenter
