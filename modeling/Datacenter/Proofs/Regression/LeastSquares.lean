import Datacenter.Proofs.Regression.Reflections

/-!
# Least squares by reflections

Over exact numbers `Regression.residual` answers with the least sum of squares that is left of a
target when a linear combination of the columns is taken away (`Regression.residual_isLeast`), and it
gives no answer exactly if some column is near a combination of the columns before it
(`Regression.residual_eq_none_iff`).

## Shape of the proof

What has been settled is never looked at again: `error settled` counts the rows below only, over the
columns that are left. One turn settles a row. The column that is turned has a first value below the
settled rows and nothing under it, so its factor affects this one row, where it can cancel whatever
there is; the rows under it depend on the other columns alone (`error_turn`). Hence what is least over
the remaining columns, one row further down, is least over all of them, for the target of the
regression (`IsLeastError.turn`) as well as for a column that is compared with those before it
(`isNear_turn`). The induction is on the columns.
-/

namespace Datacenter.Regression

/-! ## Linear combinations -/

/-- What is left of a target if a linear combination of columns, each given with its factor, is taken
away. -/
noncomputable def remainder : List (ℝ × List ℝ) → List ℝ → List ℝ
  | [], target => target
  | (factor, column) :: terms, target => takeAway factor column (remainder terms target)

/-- The sum of the squares that are left below the settled rows. -/
noncomputable def error (settled : Nat) (terms : List (ℝ × List ℝ)) (target : List ℝ) : ℝ :=
  sumSquares ((remainder terms target).drop settled)

/-- Does something to the columns of a linear combination. -/
def mapColumns (f : List ℝ → List ℝ) (terms : List (ℝ × List ℝ)) : List (ℝ × List ℝ) :=
  terms.map (Prod.map id f)

/-- The columns of a linear combination. -/
def columnsOf (terms : List (ℝ × List ℝ)) : List (List ℝ) :=
  terms.map Prod.snd

theorem columnsOf_mapColumns (f : List ℝ → List ℝ) (terms : List (ℝ × List ℝ)) :
    columnsOf (mapColumns f terms) = (columnsOf terms).map f := by
  rw [columnsOf, mapColumns, List.map_map, columnsOf, List.map_map]
  rfl

/-- A linear combination of changed columns comes from one of the columns. -/
theorem exists_mapColumns {f : List ℝ → List ℝ} {columns : List (List ℝ)}
    {terms : List (ℝ × List ℝ)} (h : columnsOf terms = columns.map f) :
    ∃ original, columnsOf original = columns ∧ mapColumns f original = terms := by
  induction columns generalizing terms with
  | nil => exact ⟨[], rfl, (List.map_eq_nil_iff.mp h).symm⟩
  | cons column columns ih =>
    cases terms with
    | nil => contradiction
    | cons t terms =>
      obtain ⟨hcolumn, hrest⟩ := List.cons.inj h
      obtain ⟨original, horiginal, hmap⟩ := ih hrest
      refine ⟨(t.1, column) :: original, congrArg _ horiginal, ?_⟩
      rw [← hmap]
      exact congrArg (· :: _) (Prod.ext rfl hcolumn.symm)

theorem length_remainder {m : Nat} {terms : List (ℝ × List ℝ)} {target : List ℝ}
    (hterms : ∀ c ∈ columnsOf terms, c.length = m) (htarget : target.length = m) :
    (remainder terms target).length = m := by
  induction terms with
  | nil => exact htarget
  | cons t terms ih =>
    obtain ⟨hcolumn, hrest⟩ := List.forall_mem_cons.mp hterms
    rw [remainder, length_takeAway _ (hcolumn.trans (ih hrest).symm), ih hrest]

/-! ## Turning -/

/-- The reflection that is taken from the part `x :: below` of a column below the settled rows. -/
noncomputable def turn (settled : Nat) (x : ℝ) (below column : List ℝ) : List ℝ :=
  reflect settled (reflectionNormal x below) (sumSquares (reflectionNormal x below)) column

section

variable {m settled : Nat} {x : ℝ} {below column target : List ℝ} {terms : List (ℝ × List ℝ)}
  (hm : m = settled + (below.length + 1))
include hm

theorem length_reflectionNormal_eq (hcolumn : column.length = m) :
    (reflectionNormal x below).length = (column.drop settled).length := by
  rw [List.length_drop, hcolumn, hm, Nat.add_sub_cancel_left]
  rfl

theorem length_turn (hcolumn : column.length = m) : (turn settled x below column).length = m := by
  rw [turn, length_reflect _ (length_reflectionNormal_eq hm hcolumn), hcolumn]

theorem turn_takeAway (factor : ℝ) (hcolumn : column.length = m) (htarget : target.length = m) :
    turn settled x below (takeAway factor column target)
      = takeAway factor (turn settled x below column) (turn settled x below target) :=
  reflect_takeAway factor _ (hcolumn.trans htarget.symm) (length_reflectionNormal_eq hm htarget)

/-- What is left after turning is what was left, turned. -/
theorem turn_remainder (hterms : ∀ c ∈ columnsOf terms, c.length = m) (htarget : target.length = m) :
    turn settled x below (remainder terms target)
      = remainder (mapColumns (turn settled x below) terms) (turn settled x below target) := by
  induction terms with
  | nil => rfl
  | cons t terms ih =>
    obtain ⟨hcolumn, hrest⟩ := List.forall_mem_cons.mp hterms
    rw [remainder, turn_takeAway hm _ hcolumn (length_remainder hrest htarget), ih hrest]
    rfl

variable (hne : sumSquares (x :: below) ≠ 0)
include hne

theorem sumSquares_turn (hcolumn : column.length = m) :
    sumSquares (turn settled x below column) = sumSquares column :=
  sumSquares_reflect (length_reflectionNormal_eq hm hcolumn) (sumSquares_reflectionNormal_ne_zero hne)

/-- The factor of the column that is turned affects one row, all others are what is left by the other
columns. -/
theorem error_turn (hcolumn : column.drop settled = x :: below)
    (hterms : ∀ c ∈ columnsOf terms, c.length = m) (htarget : target.length = m) :
    ∃ first, ∀ factor, error settled ((factor, column) :: terms) target
      = (first - factor * firstAfter x below) * (first - factor * firstAfter x below)
        + error (settled + 1) (mapColumns (turn settled x below) terms)
          (turn settled x below target) := by
  have hlength : (remainder terms target).length = m := length_remainder hterms htarget
  have hdrop : ((remainder terms target).drop settled).length = below.length + 1 := by
    rw [List.length_drop, hlength, hm, Nat.add_sub_cancel_left]
  have hzero : below.length + 1 = 0 + (below.length + 1) := (Nat.zero_add _).symm
  obtain ⟨first, rest, hsplit⟩ := List.exists_cons_of_length_eq_add_one
    (length_turn (x := x) hzero hdrop)
  have hlengthrest : rest.length = below.length := by
    have hturned := length_turn (x := x) hzero hdrop
    rw [hsplit] at hturned
    exact Nat.succ.inj hturned
  have hself : turn 0 x below (x :: below)
      = firstAfter x below :: List.replicate rest.length 0 := by
    rw [hlengthrest]
    exact reflect_reflectionNormal hne
  have hrest : error (settled + 1) (mapColumns (turn settled x below) terms)
      (turn settled x below target) = sumSquares rest := by
    rw [error, ← turn_remainder hm hterms htarget, ← List.drop_drop, turn,
      drop_reflect _ (by omega)]
    exact congrArg (fun xs => sumSquares (xs.drop 1)) hsplit
  have hkept : ∀ factor, (takeAway factor (x :: below)
      ((remainder terms target).drop settled)).length = below.length + 1 := fun factor => by
    rw [length_takeAway factor (hdrop.symm ▸ rfl), hdrop]
  refine ⟨first, fun factor => ?_⟩
  calc error settled ((factor, column) :: terms) target
    _ = sumSquares (takeAway factor (x :: below) ((remainder terms target).drop settled)) := by
        rw [error, remainder, drop_takeAway, hcolumn]
    _ = sumSquares (turn 0 x below
          (takeAway factor (x :: below) ((remainder terms target).drop settled))) :=
        (sumSquares_turn hzero hne (hkept factor)).symm
    _ = sumSquares (takeAway factor (firstAfter x below :: List.replicate rest.length 0)
          (first :: rest)) := by
        rw [turn_takeAway hzero factor rfl hdrop, hself, hsplit]
    _ = _ := by
        rw [takeAway_cons, takeAway_replicate, sumSquares_cons, hrest]

/-- Whatever the factor of the column that is turned is, no less is left than by the other columns
one row further down. -/
theorem error_turn_le (hcolumn : column.drop settled = x :: below)
    (hterms : ∀ c ∈ columnsOf terms, c.length = m) (htarget : target.length = m) (factor : ℝ) :
    error (settled + 1) (mapColumns (turn settled x below) terms) (turn settled x below target)
      ≤ error settled ((factor, column) :: terms) target := by
  obtain ⟨first, hfirst⟩ := error_turn hm hne hcolumn hterms htarget
  rw [hfirst factor]
  exact le_add_of_nonneg_left (mul_self_nonneg _)

/-- With the right factor no more is left either. -/
theorem exists_error_turn_eq (hcolumn : column.drop settled = x :: below)
    (hterms : ∀ c ∈ columnsOf terms, c.length = m) (htarget : target.length = m) :
    ∃ factor, error settled ((factor, column) :: terms) target
      = error (settled + 1) (mapColumns (turn settled x below) terms)
        (turn settled x below target) := by
  obtain ⟨first, hfirst⟩ := error_turn hm hne hcolumn hterms htarget
  refine ⟨first / firstAfter x below, ?_⟩
  rw [hfirst, div_mul_cancel₀ _ (firstAfter_ne_zero hne), sub_self, mul_zero, zero_add]

end

/-! ## One step -/

variable {m settled : Nat} {column target : List ℝ} {columns before : List (List ℝ)}

/-- What is left of the column below the settled rows is as good as nothing, or can be made so by a
combination of the columns before it. -/
def IsNear (settled : Nat) (before : List (List ℝ)) (column : List ℝ) : Prop :=
  ∃ terms, columnsOf terms = before
    ∧ Real.sqrt (error settled terms column) ≤ tolerance * Real.sqrt (sumSquares column)

/-- The number is the least sum of squares that is left by combinations of the columns. -/
def IsLeastError (settled : Nat) (columns : List (List ℝ)) (target : List ℝ) (r : ℝ) : Prop :=
  (∃ terms, columnsOf terms = columns ∧ error settled terms target = r)
    ∧ ∀ terms, columnsOf terms = columns → r ≤ error settled terms target

section

variable {x : ℝ} {below : List ℝ} (hm : m = settled + (below.length + 1))
  (hne : sumSquares (x :: below) ≠ 0) (hcolumn : column.drop settled = x :: below)
include hm hne hcolumn

/-- What is least over the other columns one row further down is least over all columns. -/
theorem IsLeastError.turn {r : ℝ} (hcolumns : ∀ c ∈ columns, c.length = m)
    (htarget : target.length = m)
    (h : IsLeastError (settled + 1) (columns.map (turn settled x below))
      (Regression.turn settled x below target) r) :
    IsLeastError settled (column :: columns) target r := by
  obtain ⟨⟨terms, hterms, hr⟩, hleast⟩ := h
  constructor
  · obtain ⟨original, rfl, rfl⟩ := exists_mapColumns hterms
    obtain ⟨factor, hfactor⟩ := exists_error_turn_eq hm hne hcolumn hcolumns htarget
    exact ⟨(factor, column) :: original, rfl, hfactor.trans hr⟩
  · intro terms hterms
    cases terms with
    | nil => contradiction
    | cons t terms =>
      obtain ⟨rfl, rfl⟩ := List.cons.inj hterms
      exact (hleast _ (columnsOf_mapColumns _ terms)).trans
        (error_turn_le hm hne hcolumn hcolumns htarget t.1)

/-- A column is near the columns before it if it is near them without the one that is turned, one row
further down. -/
theorem isNear_turn (hbefore : ∀ c ∈ before, c.length = m) (htarget : target.length = m) :
    IsNear (settled + 1) (before.map (turn settled x below)) (turn settled x below target)
      ↔ IsNear settled (column :: before) target := by
  unfold IsNear
  rw [sumSquares_turn hm hne htarget]
  constructor
  · rintro ⟨terms, hterms, hnear⟩
    obtain ⟨original, rfl, rfl⟩ := exists_mapColumns hterms
    obtain ⟨factor, hfactor⟩ := exists_error_turn_eq hm hne hcolumn hbefore htarget
    exact ⟨(factor, column) :: original, rfl, hfactor ▸ hnear⟩
  · rintro ⟨terms, hterms, hnear⟩
    cases terms with
    | nil => contradiction
    | cons t terms =>
      obtain ⟨rfl, rfl⟩ := List.cons.inj hterms
      exact ⟨_, columnsOf_mapColumns _ terms, (Real.sqrt_le_sqrt
        (error_turn_le hm hne hcolumn hbefore htarget t.1)).trans hnear⟩

end

/-! ## All steps -/

theorem tolerance_nonneg : (0 : ℝ) ≤ tolerance := by
  unfold tolerance
  norm_num

/-- A column is near no columns if little of it is left. -/
theorem isNear_nil : IsNear settled [] column
    ↔ Real.sqrt (sumSquares (column.drop settled)) ≤ tolerance * Real.sqrt (sumSquares column) := by
  constructor
  · rintro ⟨terms, hterms, hnear⟩
    obtain rfl := List.map_eq_nil_iff.mp hterms
    exact hnear
  · exact fun hnear => ⟨[], rfl, hnear⟩

/-- A column that is near nothing ends the computation. -/
theorem residual_of_isNear (h : IsNear settled [] column) :
    residual settled (column :: columns) target = none := by
  rw [isNear_nil] at h
  rw [residual]
  split
  · rfl
  · rename_i x below hbelow
    rw [hbelow] at h
    exact if_pos (Bool.or_eq_true_iff.mpr (.inr (decide_eq_true h)))

/-- Any other column is turned, with all columns after it and the target. -/
theorem residual_of_not_isNear (columns : List (List ℝ)) (target : List ℝ)
    (h : ¬ IsNear settled [] column) :
    ∃ x below, column.drop settled = x :: below ∧ sumSquares (x :: below) ≠ 0
      ∧ residual settled (column :: columns) target
        = residual (settled + 1) (columns.map (turn settled x below))
          (turn settled x below target) := by
  rw [isNear_nil, not_le] at h
  have hroot := Real.sqrt_nonneg (sumSquares column)
  have hleft : 0 < Real.sqrt (sumSquares (column.drop settled)) :=
    (mul_nonneg tolerance_nonneg hroot).trans_lt h
  have hwhole : Real.sqrt (sumSquares column) ≠ 0 :=
    (hleft.trans_le (Real.sqrt_le_sqrt (sumSquares_drop_le settled column))).ne'
  cases hbelow : column.drop settled with
  | nil =>
    rw [hbelow, sumSquares_nil, Real.sqrt_zero] at hleft
    exact absurd hleft (lt_irrefl 0)
  | cons x below =>
    rw [hbelow] at h hleft
    have hne : sumSquares (x :: below) ≠ 0 := (Real.sqrt_pos.mp hleft).ne'
    refine ⟨x, below, rfl, hne, ?_⟩
    rw [residual, hbelow, RealNumbers.scalar_zero]
    dsimp only
    rw [if_neg, if_neg]
    · rfl
    · rw [beq_iff_eq]
      exact sumSquares_reflectionNormal_ne_zero hne
    · rw [Bool.or_eq_true, beq_iff_eq, decide_eq_true_eq, not_or]
      exact ⟨hwhole, not_le.mpr h⟩

theorem length_eq_of_drop {x : ℝ} {below : List ℝ} (hlength : column.length = m)
    (hbelow : column.drop settled = x :: below) : m = settled + (below.length + 1) := by
  have hdrop := congrArg List.length hbelow
  rw [List.length_drop, List.length_cons] at hdrop
  omega

/-- An answer is the least sum of squares that is left by combinations of the columns. -/
theorem residual_isLeast {r : ℝ} (hcolumns : ∀ c ∈ columns, c.length = m)
    (htarget : target.length = m) (h : residual settled columns target = some r) :
    IsLeastError settled columns target r := by
  induction hn : columns.length generalizing settled columns target with
  | zero =>
    obtain rfl := List.length_eq_zero_iff.mp hn
    rw [residual, Option.some.injEq] at h
    refine ⟨⟨[], rfl, h⟩, fun terms hterms => ?_⟩
    obtain rfl := List.map_eq_nil_iff.mp hterms
    exact h.ge
  | succ n ih =>
    obtain ⟨column, columns, rfl⟩ := List.exists_cons_of_length_eq_add_one hn
    obtain ⟨hcolumn, hrest⟩ := List.forall_mem_cons.mp hcolumns
    by_cases hnear : IsNear settled [] column
    · rw [residual_of_isNear hnear] at h
      contradiction
    · obtain ⟨x, below, hbelow, hne, hstep⟩ := residual_of_not_isNear columns target hnear
      have hm := length_eq_of_drop hcolumn hbelow
      rw [hstep] at h
      have hturned : ∀ c ∈ columns.map (turn settled x below), c.length = m :=
        List.forall_mem_map.mpr fun c hc => length_turn hm (hrest c hc)
      have hleast := ih hturned (length_turn hm htarget) h
        ((List.length_map _).trans (Nat.succ.inj hn))
      exact hleast.turn hm hne hbelow hrest htarget

/-- There is no answer exactly if a column is near the columns before it. -/
theorem residual_eq_none_iff (hcolumns : ∀ c ∈ columns, c.length = m) :
    residual settled columns target = none
      ↔ ∃ before column after, columns = before ++ column :: after
        ∧ IsNear settled before column := by
  induction hn : columns.length generalizing settled columns target with
  | zero =>
    obtain rfl := List.length_eq_zero_iff.mp hn
    rw [residual]
    simp
  | succ n ih =>
    obtain ⟨column, columns, rfl⟩ := List.exists_cons_of_length_eq_add_one hn
    obtain ⟨hcolumn, hrest⟩ := List.forall_mem_cons.mp hcolumns
    by_cases hnear : IsNear settled [] column
    · exact iff_of_true (residual_of_isNear hnear) ⟨[], column, columns, rfl, hnear⟩
    · obtain ⟨x, below, hbelow, hne, hstep⟩ :=
        residual_of_not_isNear columns target hnear
      have hm := length_eq_of_drop hcolumn hbelow
      have hturned : ∀ c ∈ columns.map (turn settled x below), c.length = m :=
        List.forall_mem_map.mpr fun c hc => length_turn hm (hrest c hc)
      rw [hstep, ih hturned ((List.length_map _).trans (Nat.succ.inj hn))]
      constructor
      · rintro ⟨before', c', after', hsplit, hnear'⟩
        obtain ⟨before, rest, rfl, rfl, hsplit'⟩ := List.map_eq_append_iff.mp hsplit
        obtain ⟨c, after, rfl, rfl, rfl⟩ := List.map_eq_cons_iff.mp hsplit'
        obtain ⟨hbefore, hafter⟩ := List.forall_mem_append.mp hrest
        refine ⟨column :: before, c, after, rfl, ?_⟩
        exact (isNear_turn hm hne hbelow hbefore (hafter c List.mem_cons_self)).mp hnear'
      · rintro ⟨before, c, after, hsplit, hnear'⟩
        cases before with
        | nil =>
          obtain ⟨rfl, rfl⟩ := List.cons.inj hsplit
          exact absurd hnear' hnear
        | cons first before =>
          obtain ⟨rfl, rfl⟩ := List.cons.inj hsplit
          obtain ⟨hbefore, hafter⟩ := List.forall_mem_append.mp hrest
          refine ⟨_, _, after.map (turn settled x below), List.map_append, ?_⟩
          exact (isNear_turn hm hne hbelow hbefore (hafter c List.mem_cons_self)).mpr hnear'

end Datacenter.Regression
