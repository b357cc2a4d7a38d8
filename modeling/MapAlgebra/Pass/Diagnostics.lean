import MapAlgebra.Raster.PixelType

/-!
# Diagnostics

What is counted while the samples of an output are written: those below and above the range of its
type, which are clamped to it, cells without a value, and samples that are no number where the type
holds whole numbers only.
-/

namespace MapAlgebra

/-- Counts of what happened to the samples of an output. -/
structure Diagnostics where
  /-- Samples raised to the least number of the type. -/
  underflow : Nat
  /-- Samples lowered to the greatest number of the type. -/
  overflow : Nat
  /-- Cells whose formula had no value. -/
  runtimeErrors : Nat
  /-- Samples that are no number, written to a whole type. -/
  nanToInteger : Nat
  deriving DecidableEq, Repr

namespace Diagnostics

/-- Nothing happened. -/
def none : Diagnostics := ⟨0, 0, 0, 0⟩

instance : Add Diagnostics where
  add a b := ⟨a.underflow + b.underflow, a.overflow + b.overflow,
    a.runtimeErrors + b.runtimeErrors, a.nanToInteger + b.nanToInteger⟩

/-- All that happened in turn. -/
def sum (ds : List Diagnostics) : Diagnostics := ds.foldl (· + ·) none

/-- How many samples were clamped. -/
def clamped (d : Diagnostics) : Nat := d.underflow + d.overflow

/-- Whether nothing happened. -/
def isClean (d : Diagnostics) : Bool := d = none

end Diagnostics

/-- A sample brought into the range of a type, and what has to be counted for it. What is no number
stays as it is. -/
def PixelType.clamp (t : PixelType) (x : Float) : Float × Diagnostics :=
  let (low, high) := t.range
  if x.isNaN then (x, if t.isFloat then .none else { Diagnostics.none with nanToInteger := 1 })
  else if x < low then (low, { Diagnostics.none with underflow := 1 })
  else if high < x then (high, { Diagnostics.none with overflow := 1 })
  else (x, .none)

end MapAlgebra
