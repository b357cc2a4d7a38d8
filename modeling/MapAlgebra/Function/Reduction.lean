import MapAlgebra.Function.Basic
import MapAlgebra.Number.Exact
import MapAlgebra.Number.Scalar

/-!
# Reductions

How a list of samples becomes one number. Samples that are no number do not take part; a reduction
of no number at all is no number, but for the sum. Order statistics go by the order keys of samples,
so their results depend neither on the order of the list nor on missing samples in it.
-/

namespace MapAlgebra

open Number

/-- The samples that are numbers. -/
def valid (xs : List Float) : List Float :=
  xs.filter (!·.isNaN)

/-! ### Least and greatest -/

/-- The numerically smaller of two samples, the first when they are equal. -/
def lesser (x y : Float) : Float :=
  if numericKey y < numericKey x then y else x

/-- The numerically larger of two samples, the first when they are equal. -/
def larger (x y : Float) : Float :=
  if numericKey x < numericKey y then y else x

/-- Combine the numbers of a list from left to right. -/
def combineValid (f : Float → Float → Float) (xs : List Float) : Float :=
  match valid xs with
  | [] => nan
  | x :: rest => rest.foldl f x

/-- The least number of a list. -/
def least (xs : List Float) : Float := combineValid lesser xs

/-- The greatest number of a list. -/
def greatest (xs : List Float) : Float := combineValid larger xs

/-! ### Sum, mean and variance -/

/-- The sum of the numbers of a list; the empty sum is the negative zero. -/
def total (xs : List Float) : Float :=
  Scalar.sumFrom (-0.0) (valid xs)

/-- The mean of the numbers of a list. -/
def meanOfValid (xs : List Float) : Float :=
  match valid xs with
  | [] => nan
  | x :: rest => Scalar.mean (x :: rest)

/-- The variance of the numbers of a list about their mean. -/
def varianceOfValid (xs : List Float) : Float :=
  match valid xs with
  | [] => nan
  | x :: rest => Scalar.variance (x :: rest)

/-! ### Median and majority -/

/-- The numbers of a list in the total order of samples. -/
def sortValid (xs : List Float) : List Float :=
  (valid xs).mergeSort fun x y => orderKey x ≤ orderKey y

/-- The middle number in sorted order, the upper one of two. -/
def medianOfValid (xs : List Float) : Float :=
  let sorted := sortValid xs
  sorted[sorted.length / 2]?.getD nan

/-- The maximal runs of numerically equal neighbours: the first sample of each and its length. -/
def runs : List Float → List (Float × Nat)
  | [] => []
  | x :: xs =>
    match runs xs with
    | [] => [(x, 1)]
    | (y, n) :: rest =>
      if numericKey x = numericKey y then (x, n + 1) :: rest else (x, 1) :: (y, n) :: rest

/-- The number with the most numerically equal numbers in a list, the smallest of those that tie. -/
def majorityOfValid (xs : List Float) : Float :=
  ((runs (sortValid xs)).foldl (fun best run => if best.2 < run.2 then run else best) (nan, 0)).1

/-- What a reduction makes of a list of samples. -/
def Reduction.eval : Reduction → List Float → Float
  | .min => least
  | .max => greatest
  | .mean => meanOfValid
  | .var => varianceOfValid
  | .median => medianOfValid
  | .sum => total
  | .maj => majorityOfValid

end MapAlgebra
