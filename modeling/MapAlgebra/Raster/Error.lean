/-!
# Faults of rasters

Why a raster cannot be made or read. Bands are numbered from one in messages.
-/

namespace MapAlgebra

/-- A side of a window. -/
inductive Side where
  /-- Along the rows. -/
  | width
  /-- Along the columns. -/
  | height
  deriving DecidableEq, Repr

/-- The name of a side. -/
def Side.name : Side → String
  | .width => "width"
  | .height => "height"

/-- Why a raster cannot be made or read. -/
inductive RasterError where
  /-- There is no band, or not one sample for every cell of every band. -/
  | invalidDimensions (bands width height : Nat)
  /-- A place lies outside the raster. -/
  | indexOutOfBounds (row col rows cols : Nat)
  /-- There is no band of this number. -/
  | bandOutOfRange (band count : Nat)
  /-- Two grids that must have one size do not. -/
  | sizeMismatch (expectedRows expectedCols actualRows actualCols : Nat)
  /-- A window has an even side. -/
  | evenSide (side : Side) (size : Nat)
  deriving DecidableEq, Repr

/-- The message of a fault. -/
def RasterError.message : RasterError → String
  | .invalidDimensions bands width height =>
    s!"Invalid raster dimensions: {bands} band(s) of {width}x{height}"
  | .indexOutOfBounds row col rows cols =>
    s!"Index out of bounds: ({row}, {col}) in raster of size ({rows}, {cols})"
  | .bandOutOfRange band count =>
    s!"Band {band} out of range (raster has {count} band(s), numbered from 1)"
  | .sizeMismatch expectedRows expectedCols actualRows actualCols =>
    s!"Raster size mismatch: expected ({expectedRows}, {expectedCols}), " ++
      s!"got ({actualRows}, {actualCols})"
  | .evenSide side size =>
    s!"Invalid parameter: {side.name} = {size} (window sides must be odd and positive)"

end MapAlgebra
