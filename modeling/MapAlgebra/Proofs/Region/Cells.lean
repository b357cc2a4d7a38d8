import MapAlgebra.Region.Basic
import MapAlgebra.Proofs.RowMajor
import Mathlib.Data.List.Nodup
import Mathlib.Data.List.ProdSigma
import Mathlib.Data.List.Range

/-!
# Cells of a region

Which cells a region has, counted from its first one (`Region.cells`) and as cells of the grid
(`Region.gridCells`), each of them once.
-/

namespace MapAlgebra.Region

variable {region : Region}

theorem checkWithin_eq_ok_iff {rows cols : Nat} : region.checkWithin rows cols = .ok () ↔
    region.rowOffset + region.rows ≤ rows ∧ region.colOffset + region.cols ≤ cols := by
  unfold checkWithin
  constructor
  · intro h
    split at h
    · cases h
    · omega
  · intro h
    rw [if_neg (by omega)]

theorem cells_eq_product (region : Region) :
    region.cells = List.range region.rows ×ˢ List.range region.cols := rfl

theorem mem_cells {cell : Nat × Nat} :
    cell ∈ region.cells ↔ cell.1 < region.rows ∧ cell.2 < region.cols := by
  obtain ⟨row, col⟩ := cell
  rw [cells_eq_product, List.mem_product, List.mem_range, List.mem_range]

/-- No cell is listed twice. -/
theorem nodup_cells (region : Region) : region.cells.Nodup := by
  rw [cells_eq_product]
  exact List.nodup_range.product List.nodup_range

/-- The cells of a region as cells of the grid. -/
def gridCells (region : Region) : List (Nat × Nat) :=
  region.cells.map fun cell => region.toGrid cell.1 cell.2

theorem mem_gridCells {cell : Nat × Nat} : cell ∈ region.gridCells ↔
    (region.rowOffset ≤ cell.1 ∧ cell.1 < region.rowOffset + region.rows) ∧
      region.colOffset ≤ cell.2 ∧ cell.2 < region.colOffset + region.cols := by
  unfold gridCells toGrid
  constructor
  · intro h
    obtain ⟨inner, hinner, rfl⟩ := List.mem_map.1 h
    have := mem_cells.1 hinner
    dsimp only
    omega
  · intro h
    refine List.mem_map.2 ⟨(cell.1 - region.rowOffset, cell.2 - region.colOffset), ?_, ?_⟩
    · refine mem_cells.2 ⟨?_, ?_⟩
      · show cell.1 - region.rowOffset < region.rows
        omega
      · show cell.2 - region.colOffset < region.cols
        omega
    · refine Prod.ext ?_ ?_
      · show region.rowOffset + (cell.1 - region.rowOffset) = cell.1
        omega
      · show region.colOffset + (cell.2 - region.colOffset) = cell.2
        omega

theorem toGrid_mem_gridCells {cell : Nat × Nat} (h : cell ∈ region.cells) :
    region.toGrid cell.1 cell.2 ∈ region.gridCells :=
  List.mem_map.2 ⟨cell, h, rfl⟩

/-- No cell of the grid is listed twice. -/
theorem nodup_gridCells (region : Region) : region.gridCells.Nodup := by
  refine (nodup_cells region).map fun cell cell' h => ?_
  have hrow : region.rowOffset + cell.1 = region.rowOffset + cell'.1 := congrArg Prod.fst h
  have hcol : region.colOffset + cell.2 = region.colOffset + cell'.2 := congrArg Prod.snd h
  refine Prod.ext ?_ ?_
  · omega
  · omega

end MapAlgebra.Region
