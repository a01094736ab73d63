import Datacenter.Proofs.Processor.Covering
import Datacenter.Selection.Policy

/-!
# What selection policies choose

Two policies go through the candidates once and keep the best one so far, and so does the policy of
the highest coefficient. `IsFirstBest` says of such a scan that it ends with the first of the best
candidates: none that comes later beats it, and none that comes earlier even reaches it. What beats
and what reaches is up to the policy; numbers that are no values neither beat nor reach anything.

`SelectionPolicy.Favors` is what a choice has to be, by recursion on the policy, since a policy may
hand the choice on to another one. A policy chooses a candidate and no other machine
(`SelectionPolicy.mem_of_selectBy`), it chooses one unless there is none, and the one it chooses is
favored (`SelectionPolicy.selectBy_outcome`).

All this holds for every way to draw from a list that chooses an element unless there is none
(`Generator.IsChoice`), as `Generator.choose` does (`Generator.isChoice_choose`).
-/

namespace Datacenter

/-! ## Scanning for the best -/

section

variable {β : Type} {beats reaches : β → β → Prop} {ok : β → Prop} {all : List β}

/-- An element that none after it beats and none before it reaches. -/
def IsFirstBest (beats reaches : β → β → Prop) (xs : List β) (x : β) : Prop :=
  ∃ before after, xs = before ++ x :: after ∧ (∀ y ∈ before, ¬ reaches y x)
    ∧ ∀ y ∈ after, ¬ beats y x

/-- Among the elements of a list, what is beaten by one is beaten by all that reach that one, as
long as it is comparable. -/
structure IsRanking (beats reaches : β → β → Prop) (ok : β → Prop) (all : List β) : Prop where
  irrefl : ∀ x, ¬ beats x x
  comparable : ∀ x ∈ all, ∀ b, beats x b → ok x
  reaches_of_beats : ∀ y ∈ all, ∀ x, beats y x → reaches y x
  trans : ∀ y ∈ all, ∀ b x, ok b → beats x b → reaches y x → beats y b

namespace IsFirstBest

theorem singleton (x : β) : IsFirstBest beats reaches [x] x :=
  ⟨[], [], rfl, fun _ hy => (nomatch hy), fun _ hy => (nomatch hy)⟩

variable [DecidableRel beats]

/-- The best one so far stays the best, unless the next one beats it. -/
theorem snoc {seen : List β} {b : β} (hrank : IsRanking beats reaches ok all) (hseen : seen ⊆ all)
    (hok : ok b) (hb : IsFirstBest beats reaches seen b) (x : β) :
    IsFirstBest beats reaches (seen ++ [x]) (if beats x b then x else b) := by
  obtain ⟨before, after, rfl, hbefore, hafter⟩ := hb
  split
  · rename_i hbeats
    refine ⟨before ++ b :: after, [], rfl, fun y hy hreach => ?_, fun _ hy => (nomatch hy)⟩
    -- whoever reaches the new one beats the old one
    have hyb : beats y b := hrank.trans y (hseen hy) b x hok hbeats hreach
    rcases List.mem_append.mp hy with hbef | hrest
    · exact hbefore y hbef (hrank.reaches_of_beats y (hseen hy) b hyb)
    · rcases List.mem_cons.mp hrest with rfl | haft
      · exact hrank.irrefl y hyb
      · exact hafter y haft hyb
  · rename_i hbeats
    refine ⟨before, after ++ [x], by simp, hbefore, fun y hy => ?_⟩
    rcases List.mem_append.mp hy with hy | hy
    · exact hafter y hy
    · rwa [List.mem_singleton.mp hy]

/-- A scan that starts with the best one so far ends with the best one of all. -/
theorem foldl {seen xs : List β} {b : β} (hrank : IsRanking beats reaches ok all)
    (hall : seen ++ xs ⊆ all) (hok : ok b) (hb : IsFirstBest beats reaches seen b) :
    ok (xs.foldl (fun b x => if beats x b then x else b) b)
      ∧ IsFirstBest beats reaches (seen ++ xs)
        (xs.foldl (fun b x => if beats x b then x else b) b) := by
  induction xs generalizing seen b with
  | nil =>
    rw [List.append_nil]
    exact ⟨hok, hb⟩
  | cons x xs ih =>
    have hnext : ok (if beats x b then x else b) := by
      split
      · exact hrank.comparable x (hall (by simp)) b ‹_›
      · exact hok
    rw [List.append_cons] at hall ⊢
    exact ih hall hnext (hb.snoc hrank (fun y hy => hall (by simp [hy])) hok x)

end IsFirstBest

/-- Once something has been found, the scan finds something. -/
theorem foldl_some [DecidableRel beats] {step : Option β → β → Option β}
    (hstep : ∀ b x, step (some b) x = if beats x b then some x else some b) (b : β) (xs : List β) :
    xs.foldl step (some b) = some (xs.foldl (fun b x => if beats x b then x else b) b) := by
  induction xs generalizing b with
  | nil => rfl
  | cons x xs ih =>
    rw [List.foldl_cons, hstep, ← apply_ite, ih]
    rfl

end

variable {α : Type} [Scalar α]

/-- The results stand in the order of the elements they belong to. -/
theorem forall₂_of_mapM {β γ : Type} {f : β → Option γ} {xs : List β} {ys : List γ}
    (h : xs.mapM f = some ys) : List.Forall₂ (fun x y => f x = some y) xs ys := by
  induction xs generalizing ys with
  | nil =>
    cases h
    exact .nil
  | cons x xs ih =>
    rw [List.mapM_cons] at h
    obtain ⟨y, hy, h⟩ := Option.bind_eq_some_iff.mp h
    obtain ⟨ys', hys, h⟩ := Option.bind_eq_some_iff.mp h
    cases h
    exact .cons hy (ih hys)

/-- Every series has a coefficient if there are coefficients. -/
theorem Regression.length_coefficients {series : List (List α)} {coefficients : List α}
    (hc : Regression.coefficients series = some coefficients) :
    coefficients.length = series.length := by
  unfold Regression.coefficients at hc
  split at hc
  · contradiction
  · split at hc
    · contradiction
    · rw [← (forall₂_of_mapM hc).length_eq, List.length_zipIdx]

/-! ## Drawing -/

namespace Generator

theorem next_lt (g : Generator) : g.next.1 < UInt32.size :=
  Nat.mod_lt _ (by decide)

/-- What is drawn is a position. -/
theorem draw_lt {n : Nat} (hn : 0 < n) (draws : Nat) (g : Generator) : (draw n draws g).1 < n := by
  have hscaled : ∀ g : Generator, g.next.1 * n / UInt32.size < n := fun g =>
    Nat.div_lt_of_lt_mul (Nat.mul_lt_mul_of_pos_right g.next_lt hn)
  induction draws generalizing g with
  | zero => exact hscaled g
  | succ draws ih =>
    unfold draw
    dsimp only
    split
    · exact hscaled g
    · exact ih _

/-- A way to draw from a list chooses an element, unless there is none. -/
structure IsChoice {β : Type} (choose : Generator → List β → Option β × Generator) : Prop where
  nil : ∀ g, (choose g []).1 = none
  exists_mem : ∀ g xs, xs ≠ [] → ∃ x ∈ xs, (choose g xs).1 = some x

theorem IsChoice.mem {β : Type} {choose : Generator → List β → Option β × Generator}
    (hchoose : IsChoice choose) {g : Generator} {xs : List β} {x : β}
    (hx : (choose g xs).1 = some x) : x ∈ xs := by
  by_cases hne : xs = []
  · rw [hne, hchoose.nil] at hx
    contradiction
  · obtain ⟨y, hy, hchosen⟩ := hchoose.exists_mem g xs hne
    exact Option.some.inj (hchosen.symm.trans hx) ▸ hy

theorem isChoice_choose {β : Type} : IsChoice (choose : Generator → List β → _) where
  nil _ := rfl
  exists_mem g xs hne := by
    have hlt := draw_lt (List.length_pos_iff.mpr hne) 1000 g
    unfold choose
    rw [if_neg (by simpa using hne)]
    cases hdrawn : draw xs.length 1000 g with
    | mk i g' =>
      rw [hdrawn] at hlt
      exact ⟨xs[i], List.getElem_mem hlt, List.getElem?_eq_getElem hlt⟩

end Generator

namespace SelectionPolicy

variable {candidates : List (Vm α)} {time : α} {v : Vm α}
  {choose : Generator → List (Vm α) → Option (Vm α) × Generator}

/-! ## The least -/

/-- The first of the candidates for which a key is least. -/
def IsFirstLeast {κ : Type} [LT κ] [LE κ] (key : Vm α → κ) (candidates : List (Vm α)) (v : Vm α) :
    Prop :=
  ∃ before after, candidates = before ++ v :: after ∧ (∀ w ∈ before, key v < key w)
    ∧ ∀ w ∈ after, key v ≤ key w

omit [Scalar α] in
theorem IsFirstLeast.mem {κ : Type} [LT κ] [LE κ] {key : Vm α → κ}
    (hv : IsFirstLeast key candidates v) : v ∈ candidates := by
  obtain ⟨before, after, rfl, -, -⟩ := hv
  exact List.mem_append_right _ List.mem_cons_self

omit [Scalar α] in
theorem leastRam_outcome (first : Vm α) (rest : List (Vm α)) :
    ∃ v, leastRam (first :: rest) = some v ∧ IsFirstLeast (·.ram) (first :: rest) v := by
  have hrank : IsRanking (fun w v : Vm α => w.ram < v.ram) (fun w v => w.ram ≤ v.ram)
      (fun _ => True) (first :: rest) :=
    ⟨fun _ => Nat.lt_irrefl _, fun _ _ _ _ => trivial, fun _ _ _ => Nat.le_of_lt,
      fun _ _ _ _ _ hxb hyx => Nat.lt_of_le_of_lt hyx hxb⟩
  obtain ⟨-, before, after, hsplit, hbefore, hafter⟩ :=
    (IsFirstBest.singleton first).foldl hrank (List.Subset.refl _) trivial
  exact ⟨_, foldl_some (fun _ _ => rfl) first rest, before, after, hsplit,
    fun w hw => Nat.not_le.mp (hbefore w hw), fun w hw => Nat.not_lt.mp (hafter w hw)⟩

section

variable [FractionScalar α]

/-- Less is better, among values. -/
theorem isRanking_of_values {β : Type} {key : β → α} {all : List β}
    (hvalues : ∀ x ∈ all, (key x == key x) = true) :
    IsRanking (fun x b => key x < key b) (fun x b => key x ≤ key b)
      (fun x => (key x == key x) = true) all where
  irrefl _ := Std.Irrefl.irrefl _
  comparable x hx _ _ := hvalues x hx
  reaches_of_beats _ _ _ := OrderedScalar.le_of_lt
  trans y hy _ _ hb hxb hyx := FractionScalar.lt_of_le_of_lt (hvalues y hy) hb hyx hxb

theorem isFirstLeast_of_values {key : Vm α → α}
    (hvalues : ∀ w ∈ candidates, (key w == key w) = true)
    (hv : IsFirstBest (fun w b => key w < key b) (fun w b => key w ≤ key b) candidates v) :
    IsFirstLeast key candidates v := by
  obtain ⟨before, after, rfl, hbefore, hafter⟩ := hv
  have hvalue := hvalues v (by simp)
  refine ⟨before, after, rfl, fun w hw => ?_, fun w hw => ?_⟩
  · exact Decidable.byContradiction fun hnot =>
      hbefore w hw (FractionScalar.le_of_not_lt hvalue (hvalues w (by simp [hw])) hnot)
  · exact FractionScalar.le_of_not_lt (hvalues w (by simp [hw])) hvalue (hafter w hw)

theorem leastUtilized_outcome {first : Vm α} {rest : List (Vm α)}
    (hvalues : ∀ w ∈ first :: rest, (w.utilization time == w.utilization time) = true) :
    ∃ v, leastUtilized (first :: rest) time = some v
      ∧ IsFirstLeast (·.utilization time) (first :: rest) v := by
  have hfirst := hvalues first List.mem_cons_self
  obtain ⟨-, hbest⟩ := (IsFirstBest.singleton first).foldl (isRanking_of_values hvalues)
    (List.Subset.refl _) hfirst
  refine ⟨_, ?_, isFirstLeast_of_values hvalues hbest⟩
  rw [leastUtilized, List.foldl_cons]
  dsimp only
  rw [if_pos hfirst]
  exact foldl_some (fun _ _ => rfl) first rest

end

/-! ## The highest coefficient -/

/-- The first of the candidates with the highest coefficient, if that is above zero, and the first
candidate of all if no coefficient is above zero. Coefficients that are no values are passed
over. -/
def IsMostCorrelated (candidates : List (Vm α)) (coefficients : List α) (v : Vm α) : Prop :=
  (∃ before after c, candidates.zip coefficients = before ++ (v, c) :: after ∧ 0 < c
      ∧ (∀ e ∈ before, ¬ c ≤ e.2) ∧ ∀ e ∈ after, ¬ c < e.2)
    ∨ candidates.head? = some v ∧ ∀ e ∈ candidates.zip coefficients, ¬ 0 < e.2

theorem IsMostCorrelated.mem {coefficients : List α}
    (hv : IsMostCorrelated candidates coefficients v) : v ∈ candidates := by
  rcases hv with ⟨before, after, c, hsplit, -⟩ | ⟨hhead, -⟩
  · have hmem : (v, c) ∈ candidates.zip coefficients := by
      rw [hsplit]
      exact List.mem_append_right _ List.mem_cons_self
    exact (List.of_mem_zip hmem).1
  · exact List.mem_of_head? hhead

/-- More is better, above a value. -/
theorem isRanking_coefficients [FractionScalar α] (all : List (Vm α × α)) :
    IsRanking (fun x b => b.2 < x.2) (fun y x => x.2 ≤ y.2) (fun x => (x.2 == x.2) = true) all where
  irrefl _ := Std.Irrefl.irrefl _
  comparable _ _ _ hlt := OrderedScalar.beq_of_le (OrderedScalar.le_of_lt hlt)
  reaches_of_beats _ _ _ := OrderedScalar.le_of_lt
  trans _ _ _ _ hb hbx hxy := FractionScalar.lt_of_lt_of_le hb hbx hxy

theorem mostCorrelated_outcome [FractionScalar α] (first : Vm α) (rest : List (Vm α))
    (coefficients : List α) : ∃ v, mostCorrelated (first :: rest) coefficients = some v
      ∧ IsMostCorrelated (first :: rest) coefficients v := by
  -- the scan starts with the first candidate and the coefficient zero
  obtain ⟨hvalue, before, after, hsplit, hbefore, hafter⟩ :=
    (IsFirstBest.singleton (first, (0 : α))).foldl (isRanking_coefficients _)
      (List.Subset.refl ([(first, 0)] ++ (first :: rest).zip coefficients)) LawfulScalar.zero_beq
  refine ⟨_, rfl, ?_⟩
  cases before with
  | nil =>
    obtain ⟨hstart, hzip⟩ := List.cons.inj hsplit
    rw [← hstart] at hafter
    refine .inr ⟨?_, fun e he => hafter e (hzip ▸ he)⟩
    exact congrArg some (congrArg Prod.fst hstart)
  | cons start before =>
    obtain ⟨hstart, hzip⟩ := List.cons.inj hsplit
    have hpositive := hbefore start List.mem_cons_self
    rw [← hstart] at hpositive
    refine .inl ⟨before, after, _, hzip, ?_, fun e he => hbefore e (List.mem_cons_of_mem _ he),
      hafter⟩
    exact Decidable.byContradiction fun hnot =>
      hpositive (FractionScalar.le_of_not_lt LawfulScalar.zero_beq hvalue hnot)

/-! ## All policies -/

/-- What a policy's choice among candidates has to be. -/
def Favors : SelectionPolicy → List (Vm α) → α → Vm α → Prop
  | minimumUtilization, candidates, time, v => IsFirstLeast (·.utilization time) candidates v
  | minimumMigrationTime, candidates, _, v => IsFirstLeast (·.ram) candidates v
  | maximumCorrelation fallback, candidates, time, v =>
    match Regression.coefficients (candidates.map (·.history.values)) with
    | some coefficients => IsMostCorrelated candidates coefficients v
    | none => fallback.Favors candidates time v
  | random _, candidates, _, v => v ∈ candidates

theorem Favors.mem {policy : SelectionPolicy} (hv : policy.Favors candidates time v) :
    v ∈ candidates := by
  induction policy with
  | minimumUtilization => exact IsFirstLeast.mem hv
  | minimumMigrationTime => exact IsFirstLeast.mem hv
  | maximumCorrelation fallback ih =>
    unfold Favors at hv
    split at hv
    · exact hv.mem
    · exact ih hv
  | random generator => exact hv

/-- Where there is nothing to choose, nothing is chosen. -/
theorem selectBy_nil (hchoose : Generator.IsChoice choose) (policy : SelectionPolicy) (time : α) :
    (policy.selectBy choose [] time).1 = none := by
  cases policy with
  | minimumUtilization => rfl
  | minimumMigrationTime => rfl
  | maximumCorrelation fallback => rfl
  | random generator => exact Option.map_eq_none_iff.mpr (hchoose.nil generator)

/-- Without coefficients, the fallback decides. -/
theorem selectBy_maximumCorrelation (hchoose : Generator.IsChoice choose)
    {fallback : SelectionPolicy}
    (hnone : Regression.coefficients (candidates.map (·.history.values)) = none) :
    ((maximumCorrelation fallback).selectBy choose candidates time).1
      = (fallback.selectBy choose candidates time).1 := by
  cases candidates with
  | nil => rw [selectBy_nil hchoose, selectBy_nil hchoose]
  | cons first rest =>
    rw [selectBy, if_neg (by simp), hnone]

/-- Where there is something to choose, a favored candidate is chosen. -/
theorem selectBy_outcome [FractionScalar α] (hchoose : Generator.IsChoice choose)
    (policy : SelectionPolicy) (hne : candidates ≠ [])
    (hvalues : ∀ w ∈ candidates, (w.utilization time == w.utilization time) = true) :
    ∃ v, (policy.selectBy choose candidates time).1 = some v.id
      ∧ policy.Favors candidates time v := by
  obtain ⟨first, rest, rfl⟩ := List.exists_cons_of_ne_nil hne
  induction policy with
  | minimumUtilization =>
    obtain ⟨v, hv, hleast⟩ := leastUtilized_outcome hvalues
    exact ⟨v, by rw [selectBy, hv, Option.map_some], hleast⟩
  | minimumMigrationTime =>
    obtain ⟨v, hv, hleast⟩ := leastRam_outcome first rest
    exact ⟨v, by rw [selectBy, hv, Option.map_some], hleast⟩
  | maximumCorrelation fallback ih =>
    unfold Favors
    split
    · rename_i coefficients hcoefficients
      obtain ⟨v, hv, hhighest⟩ := mostCorrelated_outcome first rest coefficients
      refine ⟨v, ?_, hhighest⟩
      rw [selectBy, if_neg (by simp), hcoefficients]
      dsimp only
      rw [hv, Option.map_some]
    · rename_i hnone
      rw [selectBy_maximumCorrelation hchoose hnone]
      exact ih
  | random generator =>
    obtain ⟨v, hmem, hv⟩ := hchoose.exists_mem generator _ hne
    refine ⟨v, ?_, hmem⟩
    rw [selectBy]
    dsimp only
    rw [hv, Option.map_some]

omit [Scalar α] in
/-- A scan that keeps what it has or takes what it sees finds one of the elements. -/
theorem mem_of_foldl {step : Option (Vm α) → Vm α → Option (Vm α)}
    (hstep : ∀ best w v, step best w = some v → best = some v ∨ w = v)
    (hv : candidates.foldl step none = some v) : v ∈ candidates := by
  refine List.foldlRecOn (motive := fun best => ∀ v, best = some v → v ∈ candidates) candidates step
    ?_ (fun best ih w hw v hv => ?_) v hv
  · rintro v ⟨⟩
  · rcases hstep best w v hv with hbest | rfl
    · exact ih v hbest
    · exact hw

theorem mem_of_leastUtilized (hv : leastUtilized candidates time = some v) : v ∈ candidates := by
  refine mem_of_foldl (fun best w v hv => ?_) hv
  cases best with
  | none => exact .inr (Option.some.inj (Option.ite_none_right_eq_some.mp hv).2)
  | some b =>
    dsimp only at hv
    split at hv
    · exact .inr (Option.some.inj hv)
    · exact .inl hv

omit [Scalar α] in
theorem mem_of_leastRam (hv : leastRam candidates = some v) : v ∈ candidates := by
  refine mem_of_foldl (fun best w v hv => ?_) hv
  cases best with
  | none => exact .inr (Option.some.inj hv)
  | some b =>
    dsimp only at hv
    split at hv
    · exact .inr (Option.some.inj hv)
    · exact .inl hv

theorem mem_of_mostCorrelated {coefficients : List α}
    (hv : mostCorrelated candidates coefficients = some v) : v ∈ candidates := by
  cases candidates with
  | nil => contradiction
  | cons first rest =>
    obtain rfl := Option.some.inj hv
    refine List.foldlRecOn (motive := fun best : Vm α × α => best.1 ∈ first :: rest) _ _
      List.mem_cons_self fun best hbest e he => ?_
    dsimp only
    split
    · exact (List.of_mem_zip he).1
    · exact hbest

/-- Whatever the candidates are, none but a candidate is chosen. -/
theorem mem_of_selectBy (hchoose : Generator.IsChoice choose) {policy : SelectionPolicy} {k : Nat}
    (hk : (policy.selectBy choose candidates time).1 = some k) : ∃ v ∈ candidates, v.id = k := by
  induction policy with
  | minimumUtilization =>
    obtain ⟨v, hv, rfl⟩ := Option.map_eq_some_iff.mp hk
    exact ⟨v, mem_of_leastUtilized hv, rfl⟩
  | minimumMigrationTime =>
    obtain ⟨v, hv, rfl⟩ := Option.map_eq_some_iff.mp hk
    exact ⟨v, mem_of_leastRam hv, rfl⟩
  | maximumCorrelation fallback ih =>
    cases hc : Regression.coefficients (candidates.map (·.history.values)) with
    | none => exact ih (selectBy_maximumCorrelation hchoose hc ▸ hk)
    | some coefficients =>
      unfold selectBy at hk
      split at hk
      · contradiction
      · rw [hc] at hk
        obtain ⟨v, hv, rfl⟩ := Option.map_eq_some_iff.mp hk
        exact ⟨v, mem_of_mostCorrelated hv, rfl⟩
  | random generator =>
    obtain ⟨v, hv, rfl⟩ := Option.map_eq_some_iff.mp hk
    exact ⟨v, hchoose.mem hv, rfl⟩

end SelectionPolicy

end Datacenter
