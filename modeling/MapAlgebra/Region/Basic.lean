import MapAlgebra.Raster.Error

/-!
# Regions

Rectangular blocks of cells of a grid, given by their first cell and their extent.
-/

namespace MapAlgebra

/-- A block of cells. -/
structure Region where
  /-- The first row. -/
  rowOffset : Nat
  /-- The first column. -/
  colOffset : Nat
  /-- The number of rows. -/
  rows : Nat
  /-- The number of columns. -/
  cols : Nat
  deriving DecidableEq, Repr

namespace Region

/-- The whole of a grid. -/
def full (rows cols : Nat) : Region := ⟨0, 0, rows, cols⟩

/-- The number of cells. -/
def size (r : Region) : Nat := r.rows * r.cols

/-- Whether there is no cell. -/
def isEmpty (r : Region) : Bool := r.size = 0

/-- A region must end inside a grid of the given extent. -/
def checkWithin (r : Region) (rows cols : Nat) : Except RasterError Unit :=
  if rows < r.rowOffset + r.rows ∨ cols < r.colOffset + r.cols then
    .error (.indexOutOfBounds (r.rowOffset + r.rows) (r.colOffset + r.cols) rows cols)
  else .ok ()

/-- The cell of the grid that is at `row` and `col` of the region. -/
def toGrid (r : Region) (row col : Nat) : Nat × Nat :=
  (r.rowOffset + row, r.colOffset + col)

/-- The cells of a region, counted from its first one, row by row. -/
def cells (r : Region) : List (Nat × Nat) :=
  (List.range r.rows).flatMap fun row => (List.range r.cols).map fun col => (row, col)

end Region

end MapAlgebra
