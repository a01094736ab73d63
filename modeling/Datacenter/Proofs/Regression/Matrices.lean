import Datacenter.Proofs.Regression.LeastSquares
import Mathlib.Algebra.BigOperators.Fin
import Mathlib.Algebra.Order.Star.Real
import Mathlib.LinearAlgebra.LinearIndependent.Basic
import Mathlib.LinearAlgebra.Matrix.DotProduct

/-!
# Least squares over matrices

The least sum of squares for the columns of a matrix `A` and a vector `y` is that of `A x - y` over
all vectors `x` (`Regression.residual_columnList`), and there is none exactly if a column of `A` is
nearly dependent on those before it (`Regression.residual_columnList_eq_none_iff`). Linearly dependent
columns are (`Regression.exists_nearlyDependent`): the last one that has a factor in a combination
that vanishes is a combination of those before it.
-/

namespace Datacenter.Regression

open Matrix

variable {m n : ℕ}

/-! ## Vectors and matrices as lists -/

/-- The columns of a matrix. -/
def columnList (A : Matrix (Fin m) (Fin n) ℝ) : List (List ℝ) :=
  List.ofFn fun j => List.ofFn (A.col j)

/-- The columns of a matrix with the factors that a vector gives them. -/
def termsOf (A : Matrix (Fin m) (Fin n) ℝ) (x : Fin n → ℝ) : List (ℝ × List ℝ) :=
  List.ofFn fun j => (x j, List.ofFn (A.col j))

/-- The sum of the squares of `A x - y`. -/
noncomputable def squaredError (A : Matrix (Fin m) (Fin n) ℝ) (x : Fin n → ℝ) (y : Fin m → ℝ) : ℝ :=
  ∑ r, ((A *ᵥ x) r - y r) ^ 2

theorem squaredError_nonneg (A : Matrix (Fin m) (Fin n) ℝ) (x : Fin n → ℝ) (y : Fin m → ℝ) :
    0 ≤ squaredError A x y :=
  Finset.sum_nonneg fun _ _ => sq_nonneg _

theorem sumSquares_ofFn (y : Fin m → ℝ) : sumSquares (List.ofFn y) = ∑ r, y r ^ 2 := by
  induction m with
  | zero => rw [List.ofFn_zero, sumSquares_nil, Fin.sum_univ_zero]
  | succ m ih => rw [List.ofFn_succ, sumSquares_cons, ih, Fin.sum_univ_succ, sq]

theorem takeAway_ofFn (factor : ℝ) (column target : Fin m → ℝ) :
    takeAway factor (List.ofFn column) (List.ofFn target)
      = List.ofFn fun r => target r - factor * column r := by
  refine List.ext_getElem (by simp [takeAway]) fun r _ _ => ?_
  simp [takeAway]

/-- What is left of a vector, row by row. -/
theorem remainder_ofFn (x : Fin n → ℝ) (column : Fin n → Fin m → ℝ) (y : Fin m → ℝ) :
    remainder (List.ofFn fun j => (x j, List.ofFn (column j))) (List.ofFn y)
      = List.ofFn fun r => y r - ∑ j, column j r * x j := by
  induction n with
  | zero => simp [remainder]
  | succ n ih =>
    rw [List.ofFn_succ, remainder, ih, takeAway_ofFn]
    congr 1
    funext r
    rw [Fin.sum_univ_succ]
    ring

theorem error_termsOf (A : Matrix (Fin m) (Fin n) ℝ) (x : Fin n → ℝ) (y : Fin m → ℝ) :
    error 0 (termsOf A x) (List.ofFn y) = squaredError A x y := by
  rw [error, List.drop_zero, termsOf, remainder_ofFn, sumSquares_ofFn]
  exact Finset.sum_congr rfl fun r _ => sub_sq_comm (y r) ((A *ᵥ x) r)

theorem columnsOf_termsOf (A : Matrix (Fin m) (Fin n) ℝ) (x : Fin n → ℝ) :
    columnsOf (termsOf A x) = columnList A :=
  List.map_ofFn ..

/-- Every linear combination of the first columns comes from a vector that is zero from there on. -/
theorem exists_termsOf {A : Matrix (Fin m) (Fin n) ℝ} {p : ℕ} {terms : List (ℝ × List ℝ)}
    (h : columnsOf terms = (columnList A).take p) :
    ∃ x : Fin n → ℝ, (∀ j : Fin n, p ≤ j → x j = 0) ∧ (termsOf A x).take p = terms := by
  have hlength : terms.length = min p n := by
    simpa [columnsOf, columnList] using congrArg List.length h
  refine ⟨fun j => if hj : j < terms.length then terms[j].1 else 0,
    fun j hj => dif_neg (by omega), List.ext_getElem (by simp [termsOf, hlength]) fun j _ hj => ?_⟩
  have hcolumn : terms[j].2 = List.ofFn (A.col ⟨j, by omega⟩) := by
    have hget := congrArg (·[j]?) h
    simpa [columnsOf, columnList, hj, show j < p ∧ j < n by omega] using hget
  rw [List.getElem_take]
  exact (List.getElem_ofFn ..).trans (Prod.ext (dif_pos hj) hcolumn.symm)

theorem length_of_mem_columnList {A : Matrix (Fin m) (Fin n) ℝ} {column : List ℝ}
    (h : column ∈ columnList A) : column.length = m := by
  obtain ⟨j, rfl⟩ := (List.mem_ofFn ..).mp h
  exact List.length_ofFn ..

/-! ## Least squares -/

/-- An answer is the least sum of squares of `A x - y`. -/
theorem residual_columnList {A : Matrix (Fin m) (Fin n) ℝ} {y : Fin m → ℝ} {r : ℝ}
    (h : residual 0 (columnList A) (List.ofFn y) = some r) :
    ∃ x, squaredError A x y = r ∧ ∀ x', squaredError A x y ≤ squaredError A x' y := by
  obtain ⟨⟨terms, hterms, rfl⟩, hleast⟩ :=
    residual_isLeast (fun _ => length_of_mem_columnList) (List.length_ofFn ..) h
  have hall (x : Fin n → ℝ) : (termsOf A x).take n = termsOf A x :=
    List.take_of_length_le (List.length_ofFn ..).le
  obtain ⟨x, -, rfl⟩ := exists_termsOf (p := n)
    (hterms.trans (List.take_of_length_le (List.length_ofFn ..).le).symm)
  rw [hall] at *
  refine ⟨x, (error_termsOf A x y).symm, fun x' => ?_⟩
  rw [← error_termsOf, ← error_termsOf]
  exact hleast _ (columnsOf_termsOf A x')

/-! ## Dependent columns -/

/-- A combination of the columns before it comes as near to a column as a ten-billionth of its
length. -/
def NearlyDependent (A : Matrix (Fin m) (Fin n) ℝ) (p : Fin n) : Prop :=
  ∃ x : Fin n → ℝ, (∀ j, p ≤ j → x j = 0)
    ∧ Real.sqrt (squaredError A x (A.col p)) ≤ 1 / 10 ^ 10 * Real.sqrt (∑ r, A r p ^ 2)

theorem tolerance_eq : (tolerance : ℝ) = 1 / 10 ^ 10 := by
  unfold tolerance
  norm_num

/-- Columns without a factor take nothing away. -/
theorem remainder_append {m : ℕ} {terms rest : List (ℝ × List ℝ)} {target : List ℝ}
    (hfactors : ∀ t ∈ rest, t.1 = 0) (hrest : ∀ c ∈ columnsOf rest, c.length = m)
    (htarget : target.length = m) : remainder (terms ++ rest) target = remainder terms target := by
  have hnothing : remainder rest target = target := by
    induction rest with
    | nil => rfl
    | cons t rest ih =>
      obtain ⟨hfactor, hfactors⟩ := List.forall_mem_cons.mp hfactors
      obtain ⟨hcolumn, hrest⟩ := List.forall_mem_cons.mp hrest
      rw [remainder, ih hfactors hrest, hfactor, takeAway_zero (hcolumn.trans htarget.symm)]
  induction terms with
  | nil => exact hnothing
  | cons t terms ih => rw [List.cons_append, remainder, ih, remainder]

/-- What is left by the first columns is what is left by all of them, if the others have no factor. -/
theorem error_take_termsOf {A : Matrix (Fin m) (Fin n) ℝ} {p : ℕ} {x : Fin n → ℝ} {y : Fin m → ℝ}
    (hx : ∀ j : Fin n, p ≤ j → x j = 0) :
    error 0 ((termsOf A x).take p) (List.ofFn y) = squaredError A x y := by
  have hfactors : ∀ t ∈ (termsOf A x).drop p, t.1 = 0 := by
    intro t ht
    obtain ⟨j, hj, rfl⟩ := List.mem_iff_getElem.mp ht
    rw [List.length_drop, termsOf, List.length_ofFn] at hj
    simpa [termsOf] using hx ⟨p + j, by omega⟩ (Nat.le_add_right p j)
  have hcolumns : ∀ c ∈ columnsOf ((termsOf A x).drop p), c.length = m := by
    intro c hc
    rw [columnsOf, List.map_drop, ← columnsOf, columnsOf_termsOf] at hc
    exact length_of_mem_columnList (List.mem_of_mem_drop hc)
  rw [← error_termsOf, error, ← remainder_append hfactors hcolumns (List.length_ofFn ..),
    List.take_append_drop, error]

theorem isNear_iff_nearlyDependent {A : Matrix (Fin m) (Fin n) ℝ} {p : Fin n} :
    IsNear 0 ((columnList A).take p) (List.ofFn (A.col p)) ↔ NearlyDependent A p := by
  unfold IsNear NearlyDependent
  rw [sumSquares_ofFn, tolerance_eq]
  constructor
  · rintro ⟨terms, hterms, hnear⟩
    obtain ⟨x, hx, rfl⟩ := exists_termsOf hterms
    exact ⟨x, hx, error_take_termsOf hx ▸ hnear⟩
  · rintro ⟨x, hx, hnear⟩
    refine ⟨(termsOf A x).take p, ?_, (error_take_termsOf hx).symm ▸ hnear⟩
    rw [columnsOf, List.map_take, ← columnsOf, columnsOf_termsOf]

/-- There is no answer exactly if a column is nearly dependent on those before it. -/
theorem residual_columnList_eq_none_iff {A : Matrix (Fin m) (Fin n) ℝ} {y : Fin m → ℝ} :
    residual 0 (columnList A) (List.ofFn y) = none ↔ ∃ p, NearlyDependent A p := by
  have hcolumn (p : Fin n) : (columnList A)[(p : ℕ)]? = some (List.ofFn (A.col p)) := by
    simp [columnList]
  rw [residual_eq_none_iff fun _ => length_of_mem_columnList]
  constructor
  · rintro ⟨before, column, after, hsplit, hnear⟩
    have hp : before.length < n := by
      have hlength := congrArg List.length hsplit
      rw [columnList, List.length_ofFn, List.length_append, List.length_cons] at hlength
      omega
    refine ⟨⟨before.length, hp⟩, isNear_iff_nearlyDependent.mp ?_⟩
    have hget := hcolumn ⟨before.length, hp⟩
    rw [hsplit, List.getElem?_append_right le_rfl, Nat.sub_self] at hget
    obtain rfl := Option.some.inj hget
    rwa [hsplit, List.take_left]
  · rintro ⟨p, hnear⟩
    refine ⟨(columnList A).take p, _, (columnList A).drop (p + 1), ?_,
      isNear_iff_nearlyDependent.mpr hnear⟩
    obtain ⟨hp, hget⟩ := List.getElem?_eq_some_iff.mp (hcolumn p)
    rw [← hget, List.cons_getElem_drop_succ, List.take_append_drop]

/-- A column that is a combination of those before it is nearly dependent on them. -/
theorem nearlyDependent_of_mulVec_eq {A : Matrix (Fin m) (Fin n) ℝ} {p : Fin n} {x : Fin n → ℝ}
    (hx : ∀ j, p ≤ j → x j = 0) (hcolumn : A *ᵥ x = A.col p) : NearlyDependent A p := by
  refine ⟨x, hx, ?_⟩
  have hzero : squaredError A x (A.col p) = 0 := by simp [squaredError, hcolumn]
  rw [hzero, Real.sqrt_zero]
  positivity

/-- Linearly dependent columns are nearly dependent. -/
theorem exists_nearlyDependent {A : Matrix (Fin m) (Fin n) ℝ} (h : ¬ LinearIndependent ℝ A.col) :
    ∃ p, NearlyDependent A p := by
  obtain ⟨g, hg, j, hj⟩ := Fintype.not_linearIndependent_iff.mp h
  have hcombination : A *ᵥ g = 0 := by
    rw [← hg, Matrix.mulVec_eq_sum]
    exact Finset.sum_congr rfl fun j _ => op_smul_eq_smul (g j) (A.col j)
  -- The last column that has a factor.
  obtain ⟨p, hp, hlast⟩ := (Set.toFinite {j | g j ≠ 0}).exists_maximal ⟨j, hj⟩
  have hafter : ∀ j, p < j → g j = 0 := fun j hj => by
    by_contra hne
    exact absurd (hlast hne hj.le) hj.not_ge
  refine ⟨p, nearlyDependent_of_mulVec_eq (x := Pi.single p 1 - (g p)⁻¹ • g) (fun j hj => ?_) ?_⟩
  · rcases hj.eq_or_lt with rfl | hj
    · simp [inv_mul_cancel₀ hp]
    · simp [hafter j hj, hj.ne']
  · rw [Matrix.mulVec_sub, Matrix.mulVec_smul, hcombination, smul_zero, sub_zero,
      Matrix.mulVec_single_one]

theorem dotProduct_self_pos {y : Fin m → ℝ} (hne : y ≠ 0) : 0 < y ⬝ᵥ y := by
  have hpos := dotProduct_star_self_pos_iff.mpr hne
  rwa [star_trivial] at hpos

/-- A column that is orthogonal to those before it is as far from them as from nothing. -/
theorem not_nearlyDependent_of_orthogonal {A : Matrix (Fin m) (Fin n) ℝ} {p : Fin n}
    (hne : A.col p ≠ 0) (horthogonal : ∀ j < p, A.col j ⬝ᵥ A.col p = 0) : ¬ NearlyDependent A p := by
  rintro ⟨x, hx, hnear⟩
  have hcross : (A *ᵥ x) ⬝ᵥ A.col p = 0 := by
    rw [Matrix.mulVec_eq_sum, sum_dotProduct]
    refine Finset.sum_eq_zero fun j _ => ?_
    rw [op_smul_eq_smul, smul_dotProduct, smul_eq_mul]
    rcases lt_or_ge j p with hj | hj
    · exact mul_eq_zero_of_right _ (horthogonal j hj)
    · exact mul_eq_zero_of_left (hx j hj) _
  have hwhole : 0 < ∑ r, A r p ^ 2 := by
    simpa only [dotProduct, Matrix.col_apply, ← sq] using dotProduct_self_pos hne
  have hleft : ∑ r, A r p ^ 2 ≤ squaredError A x (A.col p) :=
    calc ∑ r, A r p ^ 2
      _ ≤ ∑ r, (A *ᵥ x) r ^ 2 - 2 * ((A *ᵥ x) ⬝ᵥ A.col p) + ∑ r, A r p ^ 2 := by
          rw [hcross, mul_zero, sub_zero]
          exact le_add_of_nonneg_left (Finset.sum_nonneg fun r _ => sq_nonneg _)
      _ = squaredError A x (A.col p) := by
          rw [dotProduct, Finset.mul_sum, ← Finset.sum_sub_distrib, ← Finset.sum_add_distrib]
          exact Finset.sum_congr rfl fun r _ => by rw [Matrix.col_apply]; ring
  have hroots := Real.sqrt_le_sqrt hleft
  have hpositive := Real.sqrt_pos.mpr hwhole
  linarith

end Datacenter.Regression
