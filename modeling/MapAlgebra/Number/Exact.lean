/-!
# Exact values of samples

A sample is a double. This module reads its bit pattern as an exact number `(-1)^s · m · 2^e`, so
that ordering, truncation and printing are arithmetic on `Nat` and `Int`. It also gives the two
order keys of samples: `orderKey`, under which the negative zero comes just before the positive one,
and `numericKey`, under which the two zeros are equal.
-/

namespace MapAlgebra.Number

/-- A finite number `(-1)^negative · significand · 2^exponent`. -/
structure Exact where
  /-- Whether the number carries a minus sign; a zero may. -/
  negative : Bool
  /-- The significand. -/
  significand : Nat
  /-- The power of two the significand is scaled by. -/
  exponent : Int
  deriving DecidableEq, Repr

/-- What a bit pattern denotes. -/
inductive Reading where
  /-- No number. -/
  | nan
  /-- An infinity of the given sign. -/
  | infinite (negative : Bool)
  /-- A finite number. -/
  | finite (x : Exact)
  deriving DecidableEq, Repr

/-- The sign, exponent field and fraction field of the 64 bits `bits`, read as a number. -/
def Reading.ofBits (bits : Nat) : Reading :=
  let negative := decide (1 <<< 63 ≤ bits)
  let field : Nat := (bits >>> 52) % (1 <<< 11)
  let fraction : Nat := bits % (1 <<< 52)
  if field = 2047 then
    if fraction = 0 then .infinite negative else .nan
  else if field = 0 then .finite ⟨negative, fraction, -1074⟩
  else .finite ⟨negative, (1 <<< 52) + fraction, (field : Int) - 1075⟩

/-- The number a sample denotes. -/
def Reading.ofFloat (x : Float) : Reading :=
  .ofBits x.toBits.toNat

/-! ### Whole part -/

/-- The whole part of a number, fraction cut off toward zero. -/
def Exact.truncate (x : Exact) : Int :=
  let magnitude : Nat :=
    if 0 ≤ x.exponent then x.significand <<< x.exponent.toNat
    else x.significand >>> (-x.exponent).toNat
  if x.negative then -(magnitude : Int) else magnitude

/-- The whole number of `[low, high]` nearest to the whole part of a sample; a sample that is no
number gives zero. -/
def truncateInto (low high : Int) (x : Float) : Int :=
  match Reading.ofFloat x with
  | .nan => 0
  | .infinite true => low
  | .infinite false => high
  | .finite e => max low (min high e.truncate)

/-! ### Order keys -/

/-- The bits of a sample without its sign. -/
def magnitude (x : Float) : Nat :=
  x.toBits.toNat % (1 <<< 63)

/-- Whether a sample carries a minus sign. -/
def isNegative (x : Float) : Bool :=
  decide (1 <<< 63 ≤ x.toBits.toNat)

/-- The place of a sample in the total order of bit patterns: negative numbers by falling magnitude,
the negative zero, the positive zero, positive numbers by rising magnitude. -/
def orderKey (x : Float) : Int :=
  if isNegative x then -(magnitude x : Int) - 1 else magnitude x

/-- The place of a sample in the numeric order, in which the two zeros coincide. -/
def numericKey (x : Float) : Int :=
  if isNegative x then -(magnitude x : Int) else magnitude x

/-! ### Samples that are no finite number -/

/-- The quiet value that stands for a missing number. -/
def nan : Float :=
  0.0 / 0.0

theorem isNaN_nan : nan.isNaN = true := by decide +kernel

/-- The positive infinity. -/
def infinity : Float :=
  1.0 / 0.0

end MapAlgebra.Number
