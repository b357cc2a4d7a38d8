import MapAlgebra.Proofs.Region.Cells
import MapAlgebra.Region.Partition
import Mathlib.Algebra.GroupWithZero.Nat
import Mathlib.Data.List.Perm.Basic

/-!
# Partitions cover

**`Region.covers_strips`** and **`Region.covers_tiles`** say that both ways to cut a region into
parts share out its cells: taken together, the cells of the parts are those of the region, each of
them once. Cells of regions one below the other are listed one after the other, so strips even keep
the order; cells of regions side by side are interleaved.
-/

namespace MapAlgebra.Region

/-- The cells of some parts are together those of a region. -/
def Covers (parts : List Region) (region : Region) : Prop :=
  (parts.flatMap gridCells).Perm region.gridCells

/-! ### Regions that touch -/

theorem gridCells_eq (region : Region) : region.gridCells =
    (List.range region.rows).flatMap fun i =>
      (List.range region.cols).map fun j => (region.rowOffset + i, region.colOffset + j) := by
  unfold gridCells cells
  rw [List.map_flatMap]
  refine congrArg (fun f => List.flatMap f (List.range region.rows)) (funext fun i => ?_)
  rw [List.map_map]
  rfl

/-- The cells of a region and of one below it. -/
theorem gridCells_below (row col rows rows' cols : Nat) :
    gridCells ⟨row, col, rows + rows', cols⟩ =
      gridCells ⟨row, col, rows, cols⟩ ++ gridCells ⟨row + rows, col, rows', cols⟩ := by
  rw [gridCells_eq, gridCells_eq, gridCells_eq]
  dsimp only
  rw [List.range_add, List.flatMap_append, List.flatMap_map]
  simp only [Nat.add_assoc]

/-- The cells of a region and of one to its right. -/
theorem gridCells_beside (row col rows cols cols' : Nat) :
    (gridCells ⟨row, col, rows, cols⟩ ++ gridCells ⟨row, col + cols, rows, cols'⟩).Perm
      (gridCells ⟨row, col, rows, cols + cols'⟩) := by
  have hrow : ∀ i, (List.range (cols + cols')).map (fun j => (row + i, col + j)) =
      (List.range cols).map (fun j => (row + i, col + j)) ++
        (List.range cols').map fun j => (row + i, col + cols + j) := by
    intro i
    rw [List.range_add, List.map_append, List.map_map]
    simp only [Function.comp_def, Nat.add_assoc]
  rw [gridCells_eq, gridCells_eq, gridCells_eq]
  simp only [hrow]
  exact List.flatMap_append_perm _ _ _

theorem gridCells_of_isEmpty {region : Region} (h : region.isEmpty = true) :
    region.gridCells = [] := by
  have hsize : region.rows * region.cols = 0 := of_decide_eq_true h
  refine List.eq_nil_iff_forall_not_mem.2 fun cell hcell => ?_
  have hmem := mem_gridCells.1 hcell
  rcases Nat.mul_eq_zero.1 hsize with hrows | hcols
  · omega
  · omega

/-- Only a region without cells has none. -/
theorem gridCells_eq_nil_iff {region : Region} :
    region.gridCells = [] ↔ region.isEmpty = true := by
  refine ⟨fun h => ?_, gridCells_of_isEmpty⟩
  by_contra hempty
  have hsize : 0 < region.rows * region.cols :=
    Nat.pos_of_ne_zero fun hzero => hempty (decide_eq_true hzero)
  have hcorner : (region.rowOffset, region.colOffset) ∈ region.gridCells :=
    mem_gridCells.2 ⟨⟨Nat.le_refl _, Nat.lt_add_of_pos_right (Nat.pos_of_mul_pos_right hsize)⟩,
      Nat.le_refl _, Nat.lt_add_of_pos_right (Nat.pos_of_mul_pos_left hsize)⟩
  rw [h] at hcorner
  cases hcorner

/-! ### Strips -/

/-- The heights of strips add up. -/
theorem sum_stripHeights (rows : Nat) {parts : Nat} (hparts : 0 < parts) :
    (stripHeights rows parts).sum = rows := by
  have hsum : ∀ n, ((List.range n).map fun i =>
      rows / parts + if i < rows % parts then 1 else 0).sum =
        n * (rows / parts) + min n (rows % parts) := by
    intro n
    induction n with
    | zero => simp
    | succ n ih =>
      rw [List.range_succ, List.map_append, List.sum_append, ih, List.map_singleton,
        List.sum_singleton, Nat.succ_mul]
      split <;> omega
  have hmod := Nat.mod_lt rows hparts
  rw [stripHeights, hsum, Nat.min_eq_right (by omega)]
  exact Nat.div_add_mod rows parts

/-- Strips stacked one below the other have the cells of the block they make up. -/
theorem flatMap_stack (region : Region) : ∀ (heights : List Nat) (row : Nat),
    (region.stack row heights).flatMap gridCells =
      gridCells ⟨row, region.colOffset, heights.sum, region.cols⟩
  | [], row => by simp [stack, gridCells_eq]
  | height :: heights, row => by
    rw [stack, List.flatMap_cons, flatMap_stack region heights, List.sum_cons, gridCells_below]

/-- **Strips** share out the cells of a region. -/
theorem covers_strips (region : Region) (parts : Nat) : Covers (region.strips parts) region := by
  unfold Covers strips
  by_cases hempty : region.isEmpty = true
  · rw [if_pos hempty, gridCells_of_isEmpty hempty]
    rfl
  · rw [if_neg hempty, flatMap_stack, sum_stripHeights _ (by omega)]

/-! ### Tiles -/

/-- The pieces of an extent, put together one after the other, are the whole: `piece` gives what
belongs to a piece by its start and length, `whole` what belongs to all up to a place. -/
theorem flatMap_spans {α : Type} {size extent : Nat} (hsize : 0 < size)
    (piece : Nat → Nat → List α) (whole : Nat → List α) (hzero : whole 0 = [])
    (hadd : ∀ a b, (whole a ++ piece a b).Perm (whole (a + b))) :
    ((spans size extent).flatMap fun p => piece p.1 p.2).Perm (whole extent) := by
  have hdiv : size * ((extent + size - 1) / size) + (extent + size - 1) % size =
    extent + size - 1 := Nat.div_add_mod _ _
  have hmod := Nat.mod_lt (extent + size - 1) hsize
  have hupTo : ∀ k ≤ (extent + size - 1) / size,
      (((List.range k).map fun i => (i * size, min size (extent - i * size))).flatMap
        fun p => piece p.1 p.2).Perm (whole (min extent (k * size))) := by
    intro k
    induction k with
    | zero =>
      intro _
      rw [Nat.zero_mul, Nat.min_zero, hzero]
      rfl
    | succ k ih =>
      intro hk
      have hlast : size * (k + 1) ≤ size * ((extent + size - 1) / size) :=
        Nat.mul_le_mul_left size hk
      rw [Nat.mul_succ, Nat.mul_comm size k] at hlast
      have hstart : min extent (k * size) = k * size := by omega
      have hend : min extent ((k + 1) * size) = k * size + min size (extent - k * size) := by
        rw [Nat.succ_mul]
        omega
      rw [List.range_succ, List.map_append, List.flatMap_append, hend]
      refine List.Perm.trans ?_ (hadd (k * size) (min size (extent - k * size)))
      refine List.Perm.append (hstart ▸ ih (by omega)) ?_
      rw [List.map_singleton, List.flatMap_singleton]
  have hall : min extent ((extent + size - 1) / size * size) = extent := by
    rw [Nat.mul_comm]
    omega
  have hperm := hupTo _ (Nat.le_refl _)
  rwa [hall] at hperm

/-- **Tiles** share out the cells of a region. -/
theorem covers_tiles (region : Region) (size : Nat) : Covers (region.tiles size) region := by
  unfold Covers tiles
  by_cases hempty : region.isEmpty = true
  · rw [if_pos hempty, gridCells_of_isEmpty hempty]
    rfl
  · rw [if_neg hempty, List.flatMap_assoc]
    have hsize : 0 < max size 1 := by omega
    -- the tiles of one row make up a strip, and the strips make up the region
    have hrow : ∀ p ∈ spans (max size 1) region.rows,
        (((spans (max size 1) region.cols).map fun q => (⟨region.rowOffset + p.1,
          region.colOffset + q.1, p.2, q.2⟩ : Region)).flatMap gridCells).Perm
          (gridCells ⟨region.rowOffset + p.1, region.colOffset, p.2, region.cols⟩) := by
      intro p _
      rw [List.flatMap_map]
      refine flatMap_spans hsize
        (fun a b => gridCells ⟨region.rowOffset + p.1, region.colOffset + a, p.2, b⟩)
        (fun b => gridCells ⟨region.rowOffset + p.1, region.colOffset, p.2, b⟩)
        ?_ fun a b => gridCells_beside _ _ _ _ _
      simp [gridCells_eq]
    refine (List.Perm.flatMap_left _ hrow).trans ?_
    refine flatMap_spans hsize
      (fun a b => gridCells ⟨region.rowOffset + a, region.colOffset, b, region.cols⟩)
      (fun b => gridCells ⟨region.rowOffset, region.colOffset, b, region.cols⟩) ?_ fun a b => ?_
    · simp [gridCells_eq]
    · rw [gridCells_below]

end MapAlgebra.Region
