import MapAlgebra.Catalog.Variable

/-!
# Cached windows

The windows read last, each with the cell it was read around. Reading one around the same cell costs
nothing, and going one column to the right reads only the new column; any other step reads the whole
window. A window that has not been read stands around the last place that 64 bits can name, which
lies outside every grid, and holds no number.
-/

namespace MapAlgebra

/-- A window and the cell it was read around. -/
structure CachedWindow where
  /-- The row it was read around. -/
  row : Nat
  /-- The column it was read around. -/
  col : Nat
  /-- The samples, row by row. -/
  samples : List Float

/-- The windows read last. -/
structure Cache where
  /-- The window of each key. -/
  entries : List (WindowKey × CachedWindow)

namespace Cache

/-- Nothing has been read. -/
def empty : Cache := ⟨[]⟩

/-- A window moved one column to the right, around `row` and `col` now: each of its rows loses its
first sample and gains a new last one. -/
def slideRight (r : Raster) (key : WindowKey) (row col : Nat) (samples : List Float) : List Float :=
  let w := key.window
  (List.range w.height).flatMap fun (i : Nat) =>
    ((samples.drop (i * w.width + 1)).take (w.width - 1)) ++
      [r.sampleNear key.band row col (i - w.halfHeight) w.halfWidth]

/-- The last row and the last column that 64 bits can name. -/
def lastPlace : Nat := UInt64.size - 1

/-- Whether a window that has not been read stands around `row` and `col`, which must not be a cell
of the grid. -/
def isUnreadPlace (r : Raster) (row col : Nat) : Bool :=
  row = lastPlace && col = lastPlace && !(row < r.rows && col < r.cols)

/-- The samples of a window around `row` and `col`, made from what was read last. -/
def read (r : Raster) (key : WindowKey) (row col : Nat) (last? : Option CachedWindow) :
    List Float :=
  match last? with
  | none =>
    if isUnreadPlace r row col then List.replicate key.window.size Number.nan
    else r.readWindow key.band row col key.window
  | some last =>
    if last.row = row ∧ last.col = col then last.samples
    else if last.row = row ∧ last.col + 1 = col then slideRight r key row col last.samples
    else r.readWindow key.band row col key.window

/-- The samples of a window of a raster around a cell, and the cache that knows them. -/
def get (c : Cache) (r : Raster) (key : WindowKey) (row col : Nat) : List Float × Cache :=
  let samples := read r key row col (c.entries.lookup key)
  (samples, ⟨(key, ⟨row, col, samples⟩) :: c.entries.filter (·.1 ≠ key)⟩)

end Cache

end MapAlgebra
