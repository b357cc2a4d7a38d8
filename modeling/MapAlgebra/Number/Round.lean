import MapAlgebra.Number.Single

/-!
# Whole numbers

The whole number nearest to a sample. It is worked out on the exact number, as the standard rounding
of doubles has no definition that a proof can open.
-/

namespace MapAlgebra.Number

/-- A number with digits behind the point rounded to a whole one, away from zero in a tie: half a
one is added to its magnitude before the digits are cut off. -/
def Exact.roundWhole (x : Exact) : Exact :=
  let places := (-x.exponent).toNat
  ⟨x.negative, (x.significand + 1 <<< (places - 1)) >>> places, 0⟩

/-- The whole number nearest to a sample, the one farther from zero in a tie. An infinity stays, and
so does what is no number. -/
def nearestWhole (x : Float) : Float :=
  match Reading.ofFloat x with
  | .finite e => if 0 ≤ e.exponent then x else e.roundWhole.toFloat
  | _ => x

end MapAlgebra.Number
