import MapAlgebra.Number.Exact
import MapAlgebra.Number.Scalar

/-!
# Band statistics

Count, sum, mean, variance and extremes of samples, gathered in one pass: each sample moves the mean
by its share and adds to the sum of squared deviations, so large offsets do not spoil the variance.
The pass is stated over any numbers; for doubles, samples that are no number are left out.
-/

namespace MapAlgebra

/-- What is known after some samples. -/
structure Tally (α : Type) where
  /-- How many samples there were. -/
  count : Nat
  /-- Their sum. -/
  sum : α
  /-- Their mean. -/
  mean : α
  /-- The sum of their squared deviations from the mean. -/
  squares : α
  /-- The least and the greatest of them, if there were any. -/
  extremes : Option (α × α)

namespace Tally

variable {α : Type} [Scalar α] [LT α] [DecidableLT α]

/-- What is known before the first sample. -/
def empty : Tally α := ⟨0, Scalar.zero, Scalar.zero, Scalar.zero, none⟩

/-- The extremes after one more sample. -/
def widen (extremes : Option (α × α)) (x : α) : α × α :=
  match extremes with
  | none => (x, x)
  | some (low, high) => (if x < low then x else low, if high < x then x else high)

/-- What is known after one more sample. -/
def add (t : Tally α) (x : α) : Tally α :=
  let count := t.count + 1
  let delta := x - t.mean
  let mean := t.mean + delta / Scalar.ofNat count
  { count
    sum := t.sum + x
    mean
    squares := t.squares + delta * (x - mean)
    extremes := some (widen t.extremes x) }

/-- What is known after a list of samples. -/
def ofList (xs : List α) : Tally α :=
  xs.foldl add empty

end Tally

/-- The statistics of some samples. -/
structure Statistics (α : Type) where
  /-- The least sample. -/
  min : α
  /-- The greatest sample. -/
  max : α
  /-- The mean. -/
  mean : α
  /-- The sum. -/
  sum : α
  /-- The mean of the squared deviations from the mean. -/
  variance : α
  /-- How many samples there are. -/
  validCount : Nat

/-- The statistics of a list of samples, if it is not empty. -/
def Statistics.ofList? {α : Type} [Scalar α] [LT α] [DecidableLT α] (xs : List α) :
    Option (Statistics α) :=
  let t := Tally.ofList xs
  t.extremes.map fun (low, high) =>
    ⟨low, high, t.mean, t.sum, t.squares / Scalar.ofNat t.count, t.count⟩

namespace Statistics

/-- The statistics of no sample: there is nothing to tell but the sum and the count. -/
def none : Statistics Float :=
  ⟨Number.nan, Number.nan, Number.nan, 0.0, Number.nan, 0⟩

/-- The statistics of the samples of a list that are numbers. -/
def ofSamples (xs : List Float) : Statistics Float :=
  (ofList? (xs.filter (!·.isNaN))).getD none

end Statistics

/-- One of the five numbers that describe a band. -/
inductive Statistic where
  /-- The least sample. -/
  | min
  /-- The greatest sample. -/
  | max
  /-- The mean. -/
  | mean
  /-- The sum. -/
  | sum
  /-- The variance. -/
  | variance
  deriving DecidableEq, Repr

namespace Statistic

/-- All five, in the order in which their variables are made. -/
def all : List Statistic := [.min, .max, .mean, .sum, .variance]

/-- How the name of a variable that holds the statistic ends. -/
def suffix : Statistic → String
  | .min => "Mini"
  | .max => "Maxi"
  | .mean => "Mean"
  | .sum => "Sum"
  | .variance => "Var"

/-- The value of a statistic. -/
def value : Statistic → Statistics Float → Float
  | .min, s => s.min
  | .max, s => s.max
  | .mean, s => s.mean
  | .sum, s => s.sum
  | .variance, s => s.variance

end Statistic

end MapAlgebra
