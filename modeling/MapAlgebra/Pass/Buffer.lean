import MapAlgebra.Raster.Basic
import MapAlgebra.Region.Basic

/-!
# Buffers

The samples of one formula over one region, before they are stored in an output of some type, and
how a buffer is written into an output.
-/

namespace MapAlgebra

/-- Samples over a region, band by band and row by row. -/
structure Buffer where
  /-- The region. -/
  region : Region
  /-- The number of bands. -/
  bands : Nat
  /-- The samples. -/
  samples : Array Float

namespace Buffer

/-- The buffer in which no sample is a number yet. -/
def blank (region : Region) (bands : Nat) : Buffer :=
  ⟨region, bands, Array.replicate (bands * region.size) Number.nan⟩

/-- The place of a sample in the list of samples; row and column count from the region's first. -/
def index (b : Buffer) (band row col : Nat) : Nat :=
  (band * b.region.rows + row) * b.region.cols + col

/-- The sample of a band at a cell of the region. -/
def get (b : Buffer) (band row col : Nat) : Float :=
  b.samples[b.index band row col]?.getD Number.nan

/-- Write samples to the bands from `band` on at a cell of the region. -/
def putFrom (b : Buffer) (row col band : Nat) : List Float → Buffer
  | [] => b
  | x :: xs =>
    putFrom { b with samples := b.samples.setIfInBounds (b.index band row col) x } row col
      (band + 1) xs

/-- Write a sample to each band at a cell of the region. -/
def put (b : Buffer) (row col : Nat) (xs : List Float) : Buffer := b.putFrom row col 0 xs

end Buffer

/-! ### Outputs -/

namespace Raster

/-- The output of zeros. -/
def output (t : PixelType) (bands rows cols : Nat) (transform : Transform Float) : Raster :=
  { zeros t bands rows cols with transform }

/-- The places of a buffer: band, row and column. -/
def placesOf (b : Buffer) : List (Nat × Nat × Nat) :=
  (List.range b.bands).flatMap fun band => b.region.cells.map fun (row, col) => (band, row, col)

/-- Store the samples of a buffer at some of its places, its first cell lying at `row` and `col`. -/
def writePlaces (r : Raster) (b : Buffer) (row col : Nat) :
    List (Nat × Nat × Nat) → Except RasterError Raster
  | [] => .ok r
  | (band, i, j) :: rest =>
    match r.set band (row + i) (col + j) (b.get band i j) with
    | .ok r => writePlaces r b row col rest
    | .error e => .error e

/-- Store the samples of a buffer, its first cell lying at `row` and `col`. -/
def write (r : Raster) (b : Buffer) (row col : Nat) : Except RasterError Raster :=
  r.writePlaces b row col (placesOf b)

end Raster

end MapAlgebra
