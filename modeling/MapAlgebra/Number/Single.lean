import MapAlgebra.Number.Exact

/-!
# Single precision

The nearest number that single precision can hold: 24 significant bits, exponents from -149 up, even
significands in a tie, infinity from half a step above the greatest number on.
-/

namespace MapAlgebra.Number

/-- The number of binary digits of a significand. -/
def bitLength (n : Nat) : Nat :=
  if n = 0 then 0 else n.log2 + 1

/-- `n / 2^shift` rounded to a whole number, ties to the even one. -/
def roundShift (n shift : Nat) : Nat :=
  let below := n >>> shift
  let remainder := n % (1 <<< shift)
  if 2 * remainder < 1 <<< shift then below
  else if 1 <<< shift < 2 * remainder then below + 1
  else below + below % 2

/-- The double of a sign, at most 53 significant bits and an exponent, for magnitudes in the normal
range; the zero otherwise. -/
def Exact.toFloat (x : Exact) : Float :=
  let sign := if x.negative then 1 <<< 63 else 0
  let length := bitLength x.significand
  if x.significand = 0 then Float.ofBits (UInt64.ofNat sign)
  else
    let field := (x.exponent + length + 1022).toNat
    let fraction := (x.significand <<< (53 - length)) - (1 <<< 52)
    Float.ofBits (UInt64.ofNat (sign + (field <<< 52) + fraction))

/-- The exponent below which a single has no digits. -/
def singleExponent (x : Exact) : Int :=
  max (-149) (x.exponent + bitLength x.significand - 24)

/-- A number rounded to single precision, exponent range left out of account at the top. -/
def Exact.roundSingle (x : Exact) : Exact :=
  let exponent := singleExponent x
  if exponent ≤ x.exponent then x
  else ⟨x.negative, roundShift x.significand (exponent - x.exponent).toNat, exponent⟩

/-- A sample rounded to single precision. -/
def single (x : Float) : Float :=
  match Reading.ofFloat x with
  | .nan => nan
  | .infinite negative => if negative then -infinity else infinity
  | .finite e =>
    let r := e.roundSingle
    if 128 < r.exponent + bitLength r.significand then
      if r.negative then -infinity else infinity
    else r.toFloat

end MapAlgebra.Number
