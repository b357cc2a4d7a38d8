import MapAlgebra.Raster.Error

/-!
# Windows

Rectangles of odd sides, which have a cell in the middle.
-/

namespace MapAlgebra

/-- A rectangle of cells around the one in its middle. -/
structure Window where
  /-- The number of columns. -/
  width : Nat
  /-- The number of rows. -/
  height : Nat
  /-- The width is odd. -/
  odd_width : width % 2 = 1
  /-- The height is odd. -/
  odd_height : height % 2 = 1
  deriving DecidableEq

namespace Window

/-- The window of given sides, or the fault of its first even side, the width being looked at
first. -/
def ofSides (width height : Nat) : Except RasterError Window :=
  if hw : width % 2 = 1 then
    if hh : height % 2 = 1 then .ok ⟨width, height, hw, hh⟩
    else .error (.evenSide .height height)
  else .error (.evenSide .width width)

/-- How many columns there are on each side of the middle. -/
def halfWidth (w : Window) : Nat := w.width / 2

/-- How many rows there are above and below the middle. -/
def halfHeight (w : Window) : Nat := w.height / 2

/-- The number of cells. -/
def size (w : Window) : Nat := w.width * w.height

/-- The cells of a window as steps down and right from the middle, row by row. -/
def offsets (w : Window) : List (Int × Int) :=
  (List.range w.height).flatMap fun (i : Nat) =>
    (List.range w.width).map fun (j : Nat) => ((i : Int) - w.halfHeight, (j : Int) - w.halfWidth)

theorem length_offsets (w : Window) : w.offsets.length = w.size := by
  simp [offsets, size, List.length_flatMap, List.map_const', Nat.mul_comm]

end Window

end MapAlgebra
