/-!
# Numbers to calculate with

Georeferencing, means and variances use the four operations and the whole numbers, whatever the
numbers are: doubles when a program runs, exact numbers when a law is stated.
-/

namespace MapAlgebra

/-- Numbers with the four operations and an element for every whole number. -/
class Scalar (α : Type) extends Add α, Sub α, Mul α, Div α where
  /-- The number `n`. -/
  ofNat : Nat → α

instance : Scalar Float := ⟨Float.ofNat⟩

namespace Scalar

variable {α : Type} [Scalar α]

/-- The number zero. -/
def zero : α := ofNat 0

/-- One half. -/
def half : α := ofNat 1 / ofNat 2

/-- The sum of a list, from left to right after `start`. -/
def sumFrom (start : α) (xs : List α) : α :=
  xs.foldl (· + ·) start

/-- The sum of a list divided by its length. -/
def mean (xs : List α) : α :=
  sumFrom zero xs / ofNat xs.length

/-- The mean of the squared deviations from the mean. -/
def variance (xs : List α) : α :=
  let m := mean xs
  sumFrom zero (xs.map fun x => (x - m) * (x - m)) / ofNat xs.length

end Scalar

end MapAlgebra
