import Datacenter.Proofs.Regression.Matrices
import Datacenter.Proofs.Selection.Choosing

/-!
# The coefficient of determination

`Regression.coefficients` over exact numbers. The regression of a series on the others is that on the
columns of a matrix (`Regression.design_eq`), so a coefficient is what its name says: the fraction of
the variation of the series that the least sum of squares does not leave unexplained
(`Regression.IsDetermination`).

A constant series would have no variation to be explained. But it is a multiple of the intercept,
and so a dependent column in the regression of any other series: wherever there are coefficients, all
series vary (`Regression.variation_pos`).
-/

namespace Datacenter.Regression

open Matrix

variable {m : ℕ}

/-! ## The matrix of a regression -/

/-- The first values of a series. -/
def observed (m : ℕ) (values : List ℝ) : Fin m → ℝ :=
  fun r => values.getD r 0

/-- The matrix of the regression on some series: a column of ones, the intercept, and one column for
each series. -/
def designMatrix (m : ℕ) (regressors : List (List ℝ)) :
    Matrix (Fin m) (Fin (regressors.length + 1)) ℝ :=
  Matrix.of fun r => Fin.cons 1 fun j => observed m regressors[j] r

/-- The sum of the squared distances from the mean. -/
noncomputable def variation (y : Fin m → ℝ) : ℝ :=
  ∑ r, (y r - (∑ s, y s) / m) ^ 2

theorem variation_nonneg (y : Fin m → ℝ) : 0 ≤ variation y :=
  Finset.sum_nonneg fun _ _ => sq_nonneg _

theorem take_eq_ofFn {values : List ℝ} (h : m ≤ values.length) :
    values.take m = List.ofFn (observed m values) := by
  refine List.ext_getElem (by simp [h]) fun r _ hr => ?_
  rw [List.length_ofFn] at hr
  simp [observed, List.getElem?_eq_getElem (hr.trans_le h)]

theorem col_intercept (regressors : List (List ℝ)) : (designMatrix m regressors).col 0 = fun _ => 1 :=
  rfl

theorem col_succ (regressors : List (List ℝ)) (j : Fin regressors.length) :
    (designMatrix m regressors).col j.succ = observed m regressors[j] :=
  rfl

/-- The columns of the regression are those of the matrix. -/
theorem design_eq {series : List (List ℝ)} (hm : ∀ s ∈ series, m ≤ s.length) (i : ℕ) :
    design series m i = columnList (designMatrix m (series.eraseIdx i)) := by
  rw [design, columnList, List.ofFn_succ, col_intercept, List.ofFn_const, RealNumbers.scalar_one]
  congr 1
  refine List.ext_getElem (by simp) fun j hj _ => ?_
  rw [List.getElem_map, List.getElem_ofFn, col_succ]
  exact take_eq_ofFn (hm _ (List.mem_of_mem_eraseIdx (List.getElem_mem _)))

theorem totalSquares_ofFn (hm : 0 < m) (y : Fin m → ℝ) :
    totalSquares (List.ofFn y) = variation y := by
  have hmean : Statistics.mean (List.ofFn y) = (∑ s, y s) / m := by
    rw [Statistics.mean, if_neg (by simp [hm.ne']), RealNumbers.sum_eq, List.sum_ofFn,
      List.length_ofFn]
  rw [totalSquares, hmean, List.map_ofFn, sumSquares_ofFn, variation]
  rfl

/-- An intercept alone gives the same value everywhere. -/
theorem mulVec_intercept (regressors : List (List ℝ)) (c : ℝ) :
    designMatrix m regressors *ᵥ Pi.single 0 c = fun _ => c := by
  funext r
  simp [Matrix.mulVec_single, designMatrix]

/-- With the mean as the intercept, all of the variation is left. -/
theorem squaredError_intercept (regressors : List (List ℝ)) (y : Fin m → ℝ) :
    squaredError (designMatrix m regressors) (Pi.single 0 ((∑ s, y s) / m)) y = variation y := by
  rw [squaredError, mulVec_intercept]
  exact Finset.sum_congr rfl fun r _ => sub_sq_comm ..

/-- A vector without variation is constant. -/
theorem eq_of_variation_eq_zero {y : Fin m → ℝ} (h : variation y = 0) (r : Fin m) :
    y r = (∑ s, y s) / m := by
  have hterms := (Finset.sum_eq_zero_iff_of_nonneg fun r _ => sq_nonneg _).mp h r (Finset.mem_univ r)
  exact sub_eq_zero.mp (pow_eq_zero_iff two_ne_zero |>.mp hterms)

/-- A constant series is a multiple of the intercept. -/
theorem exists_nearlyDependent_of_variation {regressors : List (List ℝ)} {values : List ℝ}
    (hmem : values ∈ regressors) (h : variation (observed m values) = 0) :
    ∃ p, NearlyDependent (designMatrix m regressors) p := by
  obtain ⟨j, hj, rfl⟩ := List.mem_iff_getElem.mp hmem
  refine ⟨Fin.succ ⟨j, hj⟩, nearlyDependent_of_mulVec_eq (fun q hq => ?_)
    ((mulVec_intercept regressors _).trans (funext fun r => (eq_of_variation_eq_zero h r).symm))⟩
  exact Pi.single_eq_of_ne ((Fin.succ_pos _).trans_le hq).ne' _

/-! ## One coefficient -/

/-- A number says how much of a vector's variation the columns of a matrix explain: all but the least
sum of squares, as a fraction. -/
structure IsDetermination {n : ℕ} (A : Matrix (Fin m) (Fin n) ℝ) (y : Fin m → ℝ) (c : ℝ) : Prop where
  varies : 0 < variation y
  least : ∃ x, (∀ x', squaredError A x y ≤ squaredError A x' y)
    ∧ c = 1 - squaredError A x y / variation y

theorem IsDetermination.le_one {n : ℕ} {A : Matrix (Fin m) (Fin n) ℝ} {y : Fin m → ℝ} {c : ℝ}
    (h : IsDetermination A y c) : c ≤ 1 := by
  obtain ⟨x, -, rfl⟩ := h.least
  exact sub_le_self 1 (div_nonneg (squaredError_nonneg ..) h.varies.le)

/-- Since the intercept could be the mean, no more than the variation is left. -/
theorem IsDetermination.nonneg {regressors : List (List ℝ)} {y : Fin m → ℝ} {c : ℝ}
    (h : IsDetermination (designMatrix m regressors) y c) : 0 ≤ c := by
  obtain ⟨x, hleast, rfl⟩ := h.least
  have hintercept := hleast (Pi.single 0 ((∑ s, y s) / m))
  rw [squaredError_intercept] at hintercept
  exact sub_nonneg.mpr ((div_le_one h.varies).mpr hintercept)


variable {series : List (List ℝ)} {values : List ℝ} {i : ℕ}

section

variable (hlength : ∀ s ∈ series, m ≤ s.length) (hmem : values ∈ series)
include hlength hmem

theorem determination_eq_none_iff :
    determination (design series m i) (values.take m) = none
      ↔ ∃ p, NearlyDependent (designMatrix m (series.eraseIdx i)) p := by
  rw [determination, design_eq hlength, take_eq_ofFn (hlength values hmem), Option.map_eq_none_iff,
    residual_columnList_eq_none_iff]

theorem isDetermination_of_determination {c : ℝ} (hm : 0 < m)
    (hvaries : 0 < variation (observed m values))
    (h : determination (design series m i) (values.take m) = some c) :
    IsDetermination (designMatrix m (series.eraseIdx i)) (observed m values) c := by
  rw [determination, design_eq hlength, take_eq_ofFn (hlength values hmem)] at h
  obtain ⟨unexplained, hresidual, rfl⟩ := Option.map_eq_some_iff.mp h
  obtain ⟨x, rfl, hleast⟩ := residual_columnList hresidual
  simp only [totalSquares_ofFn hm, RealNumbers.scalar_zero, RealNumbers.scalar_one,
    beq_iff_eq, if_neg hvaries.ne']
  exact ⟨hvaries, x, hleast, rfl⟩

end

/-! ## A single regressor -/

/-- The squares of a regression on a single series, both around zero. -/
theorem squaredError_singleton {values : List ℝ} {y : Fin m → ℝ}
    (hvalues : ∑ r, observed m values r = 0) (hy : ∑ r, y r = 0) (x : Fin 2 → ℝ) :
    squaredError (designMatrix m [values]) x y = m * x 0 ^ 2
      + x 1 ^ 2 * (observed m values ⬝ᵥ observed m values) - 2 * x 1 * (observed m values ⬝ᵥ y)
      + y ⬝ᵥ y := by
  have hrow : ∀ r, (designMatrix m [values] *ᵥ x) r = x 0 + observed m values r * x 1 := fun r => by
    simp [designMatrix, Matrix.mulVec, dotProduct]
  calc squaredError (designMatrix m [values]) x y
    _ = ∑ r, (x 0 ^ 2 + x 1 ^ 2 * (observed m values r * observed m values r)
          - 2 * x 1 * (observed m values r * y r) + y r * y r
          + 2 * x 0 * x 1 * observed m values r - 2 * x 0 * y r) :=
        Finset.sum_congr rfl fun r _ => by rw [hrow]; ring
    _ = _ := by
        simp only [Finset.sum_add_distrib, Finset.sum_sub_distrib, ← Finset.mul_sum, hvalues, hy,
          dotProduct, Finset.sum_const, Finset.card_univ, Fintype.card_fin, nsmul_eq_mul]
        ring

theorem variation_of_sum_eq_zero {y : Fin m → ℝ} (hy : ∑ r, y r = 0) : variation y = y ⬝ᵥ y :=
  Finset.sum_congr rfl fun r _ => by rw [hy, zero_div, sub_zero, sq]

/-- A series around zero that is not zero is far from any intercept. -/
theorem not_nearlyDependent_singleton {values : List ℝ} (hne : observed m values ≠ 0)
    (hsum : ∑ r, observed m values r = 0) (p : Fin 2) :
    ¬ NearlyDependent (designMatrix m [values]) p := by
  match p with
  | 0 =>
    refine not_nearlyDependent_of_orthogonal (fun hzero => ?_) fun j hj =>
      absurd hj (Fin.not_lt_zero j)
    obtain ⟨r, -⟩ := Function.ne_iff.mp hne
    exact one_ne_zero (congrFun hzero r)
  | 1 =>
    refine not_nearlyDependent_of_orthogonal hne fun j hj => ?_
    obtain rfl : j = 0 := Fin.lt_one_iff j |>.mp hj
    exact (one_dotProduct (observed m values)).trans hsum

/-- With a single regressor the coefficient is the squared correlation, here of series around zero. -/
theorem IsDetermination.eq_of_singleton {values : List ℝ} {y : Fin m → ℝ} {c : ℝ}
    (h : IsDetermination (designMatrix m [values]) y c) (hvalues : ∑ r, observed m values r = 0)
    (hy : ∑ r, y r = 0) (hne : observed m values ≠ 0) :
    c = (observed m values ⬝ᵥ y) ^ 2
      / ((observed m values ⬝ᵥ observed m values) * (y ⬝ᵥ y)) := by
  obtain ⟨hvaries, x, hleast, rfl⟩ := h
  rw [variation_of_sum_eq_zero hy] at hvaries ⊢
  have hsquares := dotProduct_self_pos hne
  have herror := squaredError_singleton hvalues hy
  generalize observed m values ⬝ᵥ y = product at *
  generalize observed m values ⬝ᵥ observed m values = squares at *
  have hleft : squaredError (designMatrix m [values]) x y = y ⬝ᵥ y - product ^ 2 / squares := by
    apply le_antisymm
    · refine (hleast ![0, product / squares]).trans_eq ?_
      rw [herror]
      dsimp only [Matrix.cons_val_zero, Matrix.cons_val_one]
      field_simp
      ring
    · have hrest : squaredError (designMatrix m [values]) x y
          = m * x 0 ^ 2 + squares * (x 1 - product / squares) ^ 2
            + (y ⬝ᵥ y - product ^ 2 / squares) := by
        rw [herror]
        field_simp
        ring
      rw [hrest]
      exact le_add_of_nonneg_left (by positivity)
  rw [hleft]
  field_simp
  ring

/-! ## All coefficients -/

theorem mapM_eq_none_iff {β γ : Type} {f : β → Option γ} {xs : List β} :
    xs.mapM f = none ↔ ∃ x ∈ xs, f x = none := by
  induction xs with
  | nil => simp
  | cons x xs ih =>
    rw [List.mapM_cons, List.exists_mem_cons_iff, ← ih]
    cases f x <;> cases xs.mapM f <;> simp

theorem le_length_of_mem (hm : (series.map List.length).min? = some m) :
    ∀ s ∈ series, m ≤ s.length :=
  List.forall_mem_map.mp (List.min?_eq_some_iff.mp hm).2

section

variable (hm : (series.map List.length).min? = some m) (hn : 2 ≤ series.length)
  (hlong : series.length < m)
include hm hn hlong

theorem coefficients_eq_mapM : coefficients series = series.zipIdx.mapM fun (values, i) =>
    determination (design series m i) (values.take m) := by
  rw [coefficients, hm]
  exact if_neg (by simp; omega)

theorem coefficients_eq_none_iff : coefficients series = none
    ↔ ∃ i : Fin series.length, ∃ p, NearlyDependent (designMatrix m (series.eraseIdx i)) p := by
  have hlength := le_length_of_mem hm
  rw [coefficients_eq_mapM hm hn hlong, mapM_eq_none_iff]
  constructor
  · rintro ⟨⟨values, i⟩, hmem, hnone⟩
    have hi := List.mem_zipIdx_iff_getElem?.mp hmem
    exact ⟨⟨i, (List.getElem?_eq_some_iff.mp hi).1⟩,
      (determination_eq_none_iff hlength (List.mem_of_getElem? hi)).mp hnone⟩
  · rintro ⟨i, hdependent⟩
    exact ⟨(series[i], i), List.mem_zipIdx_iff_getElem?.mpr (List.getElem?_eq_getElem i.isLt),
      (determination_eq_none_iff hlength (List.getElem_mem _)).mpr hdependent⟩

theorem exists_determination {cs : List ℝ} (h : coefficients series = some cs)
    (i : Fin series.length) : ∃ c, cs[i]? = some c
      ∧ determination (design series m i) (series[i].take m) = some c := by
  rw [coefficients_eq_mapM hm hn hlong] at h
  have hall := forall₂_of_mapM h
  have hi : (i : ℕ) < series.zipIdx.length := by simp
  refine ⟨_, List.getElem?_eq_getElem (hall.length_eq ▸ hi), ?_⟩
  have hget := hall.get hi (hall.length_eq ▸ hi)
  simpa using hget

/-- If there are coefficients, all series vary. -/
theorem variation_pos {cs : List ℝ} (h : coefficients series = some cs) (i : Fin series.length) :
    0 < variation (observed m series[i]) := by
  refine (variation_nonneg _).lt_of_ne fun hzero => ?_
  -- Any other series is regressed on this one.
  have : Nontrivial (Fin series.length) := Fin.nontrivial_iff_two_le.mpr hn
  obtain ⟨j, hj⟩ := exists_ne i
  have hmem : series[i] ∈ series.eraseIdx j :=
    List.mem_eraseIdx_iff_getElem.mpr ⟨i, i.isLt, Fin.val_ne_of_ne hj.symm, rfl⟩
  have hnone := (coefficients_eq_none_iff hm hn hlong).mpr
    ⟨j, exists_nearlyDependent_of_variation hmem hzero.symm⟩
  rw [hnone] at h
  contradiction

end

/-- There are no coefficients if the columns of one of the regressions are linearly dependent, and
any coefficients are the fractions of the series' variations that the others explain. -/
theorem coefficients_of_determination (hm : (series.map List.length).min? = some m)
    (hn : 2 ≤ series.length) (hlong : series.length < m) :
    ((∃ i : Fin series.length, ¬ LinearIndependent ℝ (designMatrix m (series.eraseIdx i)).col) →
        coefficients series = none)
      ∧ ∀ cs, coefficients series = some cs → cs.length = series.length
        ∧ ∀ i : Fin series.length, ∃ c, cs[i]? = some c
          ∧ IsDetermination (designMatrix m (series.eraseIdx i)) (observed m series[i]) c
          ∧ 0 ≤ c ∧ c ≤ 1 := by
  constructor
  · rintro ⟨i, hdependent⟩
    exact (coefficients_eq_none_iff hm hn hlong).mpr ⟨i, exists_nearlyDependent hdependent⟩
  · intro cs hcs
    have hvaries := variation_pos hm hn hlong hcs
    refine ⟨length_coefficients hcs, fun i => ?_⟩
    obtain ⟨c, hc, hdetermination⟩ := exists_determination hm hn hlong hcs i
    have hcoefficient := isDetermination_of_determination (le_length_of_mem hm)
      (List.getElem_mem _) (by omega) (hvaries i) hdetermination
    exact ⟨c, hc, hcoefficient, hcoefficient.nonneg, hcoefficient.le_one⟩

theorem coefficients_of_determination_sample :
    coefficients [[1, -1, 0], [0, 1, -1]] = some [(1 / 4 : ℝ), 1 / 4] := by
  have hnone : coefficients ([[1, -1, 0], [0, 1, -1]] : List (List ℝ)) ≠ none := by
    rw [Ne, coefficients_eq_none_iff (m := 3) rfl (by decide) (by decide)]
    rintro ⟨i, hnear⟩
    match i, hnear with
    | ⟨0, _⟩, ⟨p, hnear⟩ | ⟨1, _⟩, ⟨p, hnear⟩ =>
      refine not_nearlyDependent_singleton (Function.ne_iff.mpr ⟨1, ?_⟩) ?_ p hnear
      · norm_num [observed]
      · norm_num [observed, Fin.sum_univ_three]
  obtain ⟨cs, hcs⟩ := Option.ne_none_iff_exists'.mp hnone
  obtain ⟨hlength, hall⟩ :=
    (coefficients_of_determination (m := 3) rfl (by decide) (by decide)).2 cs hcs
  have hquarter : ∀ i : Fin 2, cs[i]? = some (1 / 4) := by
    intro i
    obtain ⟨c, hc, hdetermination, -⟩ := hall i
    rw [hc]
    match i, hdetermination with
    | ⟨0, _⟩, h | ⟨1, _⟩, h =>
      have hcorrelation := h.eq_of_singleton (by norm_num [observed, Fin.sum_univ_three])
        (by norm_num [observed, Fin.sum_univ_three]) (Function.ne_iff.mpr ⟨1, by norm_num [observed]⟩)
      rw [hcorrelation]
      norm_num [observed, dotProduct, Fin.sum_univ_three]
  obtain ⟨c, c', rfl⟩ := List.length_eq_two.mp hlength
  obtain rfl : c = 1 / 4 := Option.some.inj (hquarter 0)
  obtain rfl : c' = 1 / 4 := Option.some.inj (hquarter 1)
  exact hcs

end Datacenter.Regression
