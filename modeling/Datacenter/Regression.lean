import Datacenter.Statistics

/-!
# Linear regression

How well each of several series is explained by the others, its multiple correlation with them: the
coefficient of determination of its linear regression, with an intercept, on all other series.

## Least squares by reflections

`residual` computes the least sum of squares of `A x - y` over all `x`, for the columns of a matrix
`A`. Column by column it reflects the whole space so that the part of the column below the rows
already settled falls onto the next axis; reflections keep distances, so the least sum of squares
does not change. Once every column is settled, the best `x` cancels the settled rows of `y`, and
the squares of its other rows are what remains.

A column that is (nearly) a combination of the columns before it has (nearly) nothing left below
the settled rows. Then the coefficients are not determined, and there is no answer.
-/

namespace Datacenter.Regression

variable {α : Type} [Scalar α]

open Scalar

/-- The fraction of a column's length that has to be left below the settled rows. -/
def tolerance : α := 1e-10

/-- The sum of the squares. -/
def sumSquares (xs : List α) : α :=
  sum (xs.map fun x => x * x)

/-- The inner product. -/
def dot (xs ys : List α) : α :=
  sum (List.zipWith (· * ·) xs ys)

/-- Reflects a column at the plane orthogonal to `normal`, leaving its first `settled` rows alone.
`square` is the inner product of `normal` with itself. -/
def reflect (settled : Nat) (normal : List α) (square : α) (column : List α) : List α :=
  let below := column.drop settled
  let factor := 2 * dot normal below / square
  column.take settled ++ List.zipWith (fun x v => x - factor * v) below normal

/-- Reflects every column. -/
def reflectAll (settled : Nat) (normal : List α) (square : α) (columns : List (List α)) :
    List (List α) :=
  columns.map (reflect settled normal square)

@[simp] theorem length_reflectAll (settled : Nat) (normal : List α) (square : α)
    (columns : List (List α)) :
    (reflectAll settled normal square columns).length = columns.length :=
  List.length_map ..

/-- The normal of the reflection that turns `x :: below` onto the first axis, on the side away from
`x`, where no digits cancel. -/
def reflectionNormal (x : α) (below : List α) : List α :=
  let norm := Scalar.sqrt (sumSquares (x :: below))
  (x - if 0 < x then -norm else norm) :: below

/-- The least sum of squares of `A x - y`, given the columns of `A` that are not settled yet, or
`none` if a column depends on the ones before it. -/
def residual (settled : Nat) : List (List α) → List α → Option α
  | [], y => some (sumSquares (y.drop settled))
  | column :: columns, y =>
    match column.drop settled with
    | [] => none
    | x :: below =>
      let left := Scalar.sqrt (sumSquares (x :: below))
      let whole := Scalar.sqrt (sumSquares column)
      if whole == 0 || left ≤ tolerance * whole then none
      else
        let normal := reflectionNormal x below
        let square := sumSquares normal
        if square == 0 then residual (settled + 1) columns y
        else
          residual (settled + 1) (reflectAll settled normal square columns)
            (reflect settled normal square y)
termination_by columns => columns.length

/-- The columns of the regression of the `i`-th series on the others: a constant one and the other
series. -/
def design (series : List (List α)) (length i : Nat) : List (List α) :=
  List.replicate length 1 :: (series.eraseIdx i).map (·.take length)

/-- The sum of the squared distances from the mean. -/
def totalSquares (y : List α) : α :=
  let center := Statistics.mean y
  sumSquares (y.map (· - center))

/-- The fraction of the variation of `y` that the columns explain. A constant `y` has no variation
to explain. -/
def determination (columns : List (List α)) (y : List α) : Option α :=
  (residual 0 columns y).map fun unexplained =>
    let total := totalSquares y
    if total == 0 then 0 else 1 - unexplained / total

/-- The coefficient of determination of each series by the others, over the length of the shortest
one. There is none for fewer than two series, for series that are not longer than their number,
and for linearly dependent regressors. -/
def coefficients (series : List (List α)) : Option (List α) :=
  match (series.map List.length).min? with
  | none => none
  | some length =>
    if series.length < 2 || length ≤ series.length then none
    else series.zipIdx.mapM fun (y, i) => determination (design series length i) (y.take length)

end Datacenter.Regression
