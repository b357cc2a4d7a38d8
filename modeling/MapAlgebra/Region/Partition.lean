import MapAlgebra.Region.Basic

/-!
# Partitions

Two ways to cut a region into smaller ones: into strips of nearly equal height, top down, and into
square tiles, row by row, smaller ones at the lower and right borders. A region without cells has no
parts.
-/

namespace MapAlgebra.Region

/-! ### Strips -/

/-- The heights of `parts` strips of `rows` rows in all: the first ones are one row higher when the
rows cannot be shared out evenly. -/
def stripHeights (rows parts : Nat) : List Nat :=
  (List.range parts).map fun i => rows / parts + if i < rows % parts then 1 else 0

/-- Full-width parts of a region of given heights, one below the other from `row` on. -/
def stack (r : Region) (row : Nat) : List Nat → List Region
  | [] => []
  | height :: heights => ⟨row, r.colOffset, height, r.cols⟩ :: stack r (row + height) heights

/-- At most `parts` strips, none of them empty; at least one is asked for. -/
def strips (r : Region) (parts : Nat) : List Region :=
  if r.isEmpty then []
  else r.stack r.rowOffset (stripHeights r.rows (max 1 (min parts r.rows)))

/-! ### Tiles -/

/-- An extent cut into pieces of length `size`, the last one shorter: the start and the length of
each. -/
def spans (size extent : Nat) : List (Nat × Nat) :=
  (List.range ((extent + size - 1) / size)).map fun i => (i * size, min size (extent - i * size))

/-- Tiles of side `size`, row by row; a side of zero counts as one. -/
def tiles (r : Region) (size : Nat) : List Region :=
  if r.isEmpty then []
  else
    (spans (max size 1) r.rows).flatMap fun (row, rows) =>
      (spans (max size 1) r.cols).map fun (col, cols) =>
        ⟨r.rowOffset + row, r.colOffset + col, rows, cols⟩

end MapAlgebra.Region
