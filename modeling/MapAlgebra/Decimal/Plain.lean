import MapAlgebra.Decimal.Shortest

/-!
# Plain decimal text

The text of a sample inside a message: the shortest digits that read back, always written
positionally and never with an exponent, without a fraction when there is none. What is no finite
number is spelled `NaN`, `inf` and `-inf`; a negative zero keeps its sign.
-/

namespace MapAlgebra.Decimal

open MapAlgebra.Number

/-- The digits of a whole number in base ten, most significant first. -/
def naturalDigits (n : Nat) : List Char :=
  Nat.toDigits 10 n

/-- The digits of a decimal written without an exponent, after zeros at the end of a fraction have
been dropped. -/
def Digits.positional (d : Digits) : List Char :=
  let digits := naturalDigits d.digits
  if 0 ≤ d.exponent then digits ++ List.replicate d.exponent.toNat '0'
  else
    let places := (-d.exponent).toNat
    let padded := List.replicate (places + 1 - digits.length) '0' ++ digits
    let whole := padded.take (padded.length - places)
    let fraction := ((padded.drop (padded.length - places)).reverse.dropWhile (· = '0')).reverse
    if fraction.isEmpty then whole else whole ++ '.' :: fraction

/-- The plain text of what a bit pattern denotes. -/
def Reading.plain : Reading → String
  | .nan => "NaN"
  | .infinite negative => if negative then "-inf" else "inf"
  | .finite x =>
    let text := String.ofList (shortest x).positional
    if x.negative then "-" ++ text else text

/-- The plain text of a sample. -/
def plain (x : Float) : String :=
  Reading.plain (Reading.ofFloat x)

end MapAlgebra.Decimal
