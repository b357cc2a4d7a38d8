import MapAlgebra.Raster.Error
import MapAlgebra.Raster.PixelType
import MapAlgebra.Raster.Statistics
import MapAlgebra.Raster.Transform
import MapAlgebra.Raster.Window

/-!
# Rasters

A raster is a stack of bands over one grid of cells, georeferenced, with one sample for each band
and cell. Samples are listed band by band and row by row. A place outside the grid reads as what is
no number. Rows and columns are given as numbers of 64 bits; around a cell that is not in the grid,
windows read those bits with a sign.
-/

namespace MapAlgebra

/-- A stack of bands over one grid. -/
structure Raster where
  /-- The type the samples are stored as. -/
  pixelType : PixelType
  /-- The number of bands. -/
  bands : Nat
  /-- The number of rows. -/
  rows : Nat
  /-- The number of columns. -/
  cols : Nat
  /-- The samples, band by band and row by row. -/
  samples : Array Float
  /-- There is one sample for each band and cell. -/
  size_samples : samples.size = bands * rows * cols
  /-- Where the grid lies. -/
  transform : Transform Float
  /-- The sample that marks missing data. -/
  noData? : Option Float

namespace Raster

/-! ### Making rasters -/

/-- The raster of zeros. -/
def zeros (t : PixelType) (bands rows cols : Nat) : Raster :=
  ⟨t, bands, rows, cols, Array.replicate (bands * rows * cols) 0.0, by simp, .unit, none⟩

/-- The raster of given samples, stored as the type says; there must be a band, and one sample for
each band and cell. -/
def ofSamples (t : PixelType) (bands rows cols : Nat) (samples : List Float) :
    Except RasterError Raster :=
  let stored := (samples.map t.store).toArray
  if h : stored.size = bands * rows * cols then
    if bands = 0 then .error (.invalidDimensions bands cols rows)
    else .ok ⟨t, bands, rows, cols, stored, h, .unit, none⟩
  else .error (.invalidDimensions bands cols rows)

/-- A single band: its rows, columns and samples. -/
structure Layer where
  /-- The number of rows. -/
  rows : Nat
  /-- The number of columns. -/
  cols : Nat
  /-- The samples, row by row. -/
  samples : List Float

/-- The raster of a stack of layers, which must all have the size of the first. -/
def ofLayers (t : PixelType) (layers : List Layer) : Except RasterError Raster :=
  match layers with
  | [] => .error (.invalidDimensions 0 0 0)
  | first :: _ =>
    match layers.find? fun l => l.rows ≠ first.rows || l.cols ≠ first.cols with
    | some l => .error (.sizeMismatch first.rows first.cols l.rows l.cols)
    | none => ofSamples t layers.length first.rows first.cols (layers.flatMap (·.samples))

/-- The raster of the same samples, neither georeferenced nor with missing data. -/
def bare (r : Raster) : Raster :=
  { r with transform := .unit, noData? := none }

/-! ### Reading and writing samples -/

/-- The place of a sample in the list of samples. -/
def index (r : Raster) (band row col : Nat) : Nat :=
  (band * r.rows + row) * r.cols + col

/-- The sample of a band at a cell, if there is one. -/
def get? (r : Raster) (band row col : Nat) : Option Float :=
  if band < r.bands && row < r.rows && col < r.cols then r.samples[r.index band row col]? else none

/-- The fault of a place that holds no sample. -/
def fault (r : Raster) (band row col : Nat) : RasterError :=
  if band < r.bands then .indexOutOfBounds row col r.rows r.cols
  else .bandOutOfRange (band + 1) r.bands

/-- The sample of a band at a cell. -/
def get (r : Raster) (band row col : Nat) : Except RasterError Float :=
  match r.get? band row col with
  | some x => .ok x
  | none => .error (r.fault band row col)

/-- The raster with another sample of a band at a cell, stored as the type says. -/
def set (r : Raster) (band row col : Nat) (x : Float) : Except RasterError Raster :=
  if band < r.bands && row < r.rows && col < r.cols then
    .ok { r with
      samples := r.samples.setIfInBounds (r.index band row col) (r.pixelType.store x)
      size_samples := by rw [Array.size_setIfInBounds]; exact r.size_samples }
  else .error (r.fault band row col)

/-- The samples of all bands at a cell. -/
def pixel (r : Raster) (row col : Nat) : Except RasterError (List Float) :=
  (List.range r.bands).mapM fun band => r.get band row col

/-- The samples of a band, row by row. -/
def band (r : Raster) (band : Nat) : Except RasterError (List Float) :=
  if band < r.bands then
    let size := r.rows * r.cols
    .ok (r.samples.extract (band * size) ((band + 1) * size)).toList
  else .error (.bandOutOfRange (band + 1) r.bands)

/-- The sample of a band at a cell, or what is no number where there is none. -/
def sample (r : Raster) (band row col : Nat) : Float :=
  (r.get? band row col).getD Number.nan

/-- The sample of a band at a cell that may lie left of or above the grid. -/
def sampleAt (r : Raster) (band : Nat) (row col : Int) : Float :=
  if 0 ≤ row && 0 ≤ col then r.sample band row.toNat col.toNat else Number.nan

/-- The first `count` samples of a pixel. -/
def readPixel (r : Raster) (row col count : Nat) : List Float :=
  (List.range count).map fun band => r.sample band row col

/-- The place that a number names on a line of `extent` cells. A number below the extent names its
cell. Any other stands for the signed number of the same 64 bits, so the numbers just below `2^64`
name the places just before the first cell. -/
def linePlace (extent n : Nat) : Int :=
  if n < extent then n else Int.bmod n UInt64.size

theorem linePlace_of_lt {extent n : Nat} (h : n < extent) : linePlace extent n = n :=
  if_pos h

/-- The sample of a band `down` rows below and `right` columns right of a cell. -/
def sampleNear (r : Raster) (band row col : Nat) (down right : Int) : Float :=
  r.sampleAt band (linePlace r.rows row + down) (linePlace r.cols col + right)

/-- The samples of a band in a window around a cell, row by row. -/
def readWindow (r : Raster) (band row col : Nat) (w : Window) : List Float :=
  w.offsets.map fun (down, right) => r.sampleNear band row col down right

/-! ### Statistics -/

/-- The statistics of a band over its samples that are not missing. -/
def statistics (r : Raster) (band : Nat) : Except RasterError (Statistics Float) := do
  let samples ← r.band band
  return .ofSamples (samples.filter (!r.pixelType.isMissing r.noData? ·))

/-- The statistics of a band over all its samples, no-data marks included. -/
def rawStatistics (r : Raster) (band : Nat) : Except RasterError (Statistics Float) := do
  return .ofSamples (← r.band band)

end Raster

/-! ### Sources -/

/-- A raster that formulas read. -/
structure Source where
  /-- The raster. -/
  raster : Raster
  /-- Whether statistics leave out the samples that mark missing data. -/
  masksNoData : Bool

/-- The statistics of a band of a source. -/
def Source.statistics (s : Source) (band : Nat) : Except RasterError (Statistics Float) :=
  if s.masksNoData then s.raster.statistics band else s.raster.rawStatistics band

end MapAlgebra
