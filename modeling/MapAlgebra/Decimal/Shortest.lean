import MapAlgebra.Number.Exact

/-!
# Fewest decimal digits

A positive double is the centre of the interval of reals that round to it. The decimal chosen for it
lies in that interval on the coarsest grid `… · 10^k` that has a point there, so no decimal with
fewer digits reads back as the same double; of the two neighbours of the double on that grid the
nearer one is taken, and the upper one when both are equally near.
-/

namespace MapAlgebra.Decimal

open MapAlgebra.Number

/-- The decimal number `digits · 10^exponent`. -/
structure Digits where
  /-- The significant digits, read as a whole number. -/
  digits : Nat
  /-- The power of ten they are scaled by. -/
  exponent : Int
  deriving DecidableEq, Repr

/-- The reals that round to a double, in units of `2^unit`: the double stands at `centre`, the
interval reaches from `low` to `high`, and its ends belong to it when `closed`. -/
structure Interval where
  /-- The lower end. -/
  low : Nat
  /-- The double itself. -/
  centre : Nat
  /-- The upper end. -/
  high : Nat
  /-- The power of two of one unit. -/
  unit : Int
  /-- Whether the ends round to the double too. -/
  closed : Bool
  deriving DecidableEq, Repr

/-- The interval of a finite double of nonzero significand: half a step up, and half a step down,
where the step below a power of two is half as wide. -/
def Interval.ofExact (x : Exact) : Interval :=
  let narrow := x.significand = 1 <<< 52 ∧ -1074 < x.exponent
  { low := if narrow then 4 * x.significand - 1 else 4 * x.significand - 2
    centre := 4 * x.significand
    high := 4 * x.significand + 2
    unit := x.exponent - 2
    closed := x.significand % 2 = 0 }

namespace Interval

/-- The pair `(a, b)` for which a number `n` of units is `n · a / b` steps of the grid `10^k`. -/
def scale (i : Interval) (k : Int) : Nat × Nat :=
  (Nat.pow 10 (-k).toNat <<< i.unit.toNat, Nat.pow 10 k.toNat <<< (-i.unit).toNat)

/-- Whether the point `d · 10^k` belongs to the interval. -/
def contains (i : Interval) (k : Int) (d : Nat) : Bool :=
  let (a, b) := i.scale k
  if i.closed then i.low * a ≤ d * b && d * b ≤ i.high * a
  else i.low * a < d * b && d * b < i.high * a

/-- The point of the grid `10^k` in the interval that is nearest to the double, the upper one of two
equally near, if one of the double's two neighbours on the grid lies in the interval. -/
def nearest? (i : Interval) (k : Int) : Option Nat :=
  let (a, b) := i.scale k
  let below := i.centre * a / b
  let remainder := i.centre * a % b
  let lower := i.contains k below
  let upper := i.contains k (below + 1)
  if upper && (!lower || b ≤ 2 * remainder) then some (below + 1)
  else if lower then some below
  else none

/-- The coarsest of the grids `10^k`, `10^(k-1)`, … with a point in the interval, `tries` grids at
most, and the point chosen on it. -/
def coarsest (i : Interval) (k : Int) : Nat → Digits
  | 0 => ⟨0, 0⟩
  | tries + 1 =>
    match i.nearest? k with
    | some d => ⟨d, k⟩
    | none => coarsest i (k - 1) tries

end Interval

/-- The power of ten of the coarsest grid that can hold a double. -/
def coarsestExponent : Int := 309

/-- How many grids there are from the coarsest down to `10^-324`, on which the least double has a
point. -/
def gridCount : Nat := 634

/-- The shortest decimal that reads back as the magnitude of `x`. -/
def shortest (x : Exact) : Digits :=
  if x.significand = 0 then ⟨0, 0⟩
  else (Interval.ofExact x).coarsest coarsestExponent gridCount

end MapAlgebra.Decimal
