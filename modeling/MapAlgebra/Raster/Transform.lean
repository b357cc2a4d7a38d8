import MapAlgebra.Number.Scalar

/-!
# Georeferencing

The affine map from places of a grid, counted in cells, to physical coordinates. It is stated over
any numbers, so that its laws can be stated in exact arithmetic.
-/

namespace MapAlgebra

/-- An affine map from the columns and rows of a grid to coordinates. -/
structure Transform (α : Type) where
  /-- The first coordinate of the corner of the grid. -/
  originX : α
  /-- The second coordinate of the corner of the grid. -/
  originY : α
  /-- What a column adds to the first coordinate. -/
  pixelWidth : α
  /-- What a row adds to the second coordinate. -/
  pixelHeight : α
  /-- What a row adds to the first coordinate. -/
  rowRotation : α
  /-- What a column adds to the second coordinate. -/
  colRotation : α

namespace Transform

variable {α : Type} [Scalar α]

/-- The coordinates of the place `col` columns right of and `row` rows below the corner. -/
def locate (t : Transform α) (col row : α) : α × α :=
  (t.originX + col * t.pixelWidth + row * t.rowRotation,
    t.originY + col * t.colRotation + row * t.pixelHeight)

/-- The coordinates of the centre of a cell. -/
def center (t : Transform α) (col row : Nat) : α × α :=
  t.locate (Scalar.ofNat col + Scalar.half) (Scalar.ofNat row + Scalar.half)

/-- The coordinates of the corner of a cell. -/
def corner (t : Transform α) (col row : Nat) : α × α :=
  t.locate (Scalar.ofNat col) (Scalar.ofNat row)

/-- The map of a part of the grid whose corner is that of a cell. -/
def shifted (t : Transform α) (col row : Nat) : Transform α :=
  let (x, y) := t.corner col row
  { t with originX := x, originY := y }

/-- The map without rotation. -/
def northUp (originX originY pixelWidth pixelHeight : α) : Transform α :=
  ⟨originX, originY, pixelWidth, pixelHeight, Scalar.zero, Scalar.zero⟩

/-- Cells of size one whose rows run against the second coordinate. -/
def unit : Transform Float := northUp 0.0 0.0 1.0 (-1.0)

end Transform

end MapAlgebra
