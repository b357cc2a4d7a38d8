import MapAlgebra.Proofs.Region.Cover
import Mathlib.Algebra.Order.Floor.Div

/-!
# Parts one by one

What the parts of a region are like. Strips have the width of the region, lie one below the other
and are of nearly equal height; tiles are listed row by row and are no larger than asked for. No
part is empty, and a cell of the region lies in one part, a cell outside in none
(`Region.SharesOut`).
Main statement: **`Region.strips_and_tiles`**.

A list of tiles is what a walk takes that has two counters only, the row and the column of the next
tile (`TileWalk`): it goes right by a side until it leaves the region, then to the first tile of the
next row. **`Region.takes_tiles`** says that it ends, having taken the tiles in order, and that its
counters are inside the region whenever it takes one, so that they never get further than a side
beyond it.
-/

namespace MapAlgebra.Region

/-! ### Cells and the parts they lie in -/

/-- A cell of the grid lies in a region. -/
def Contains (region : Region) (cell : Nat × Nat) : Prop :=
  (region.rowOffset ≤ cell.1 ∧ cell.1 < region.rowOffset + region.rows) ∧
    region.colOffset ≤ cell.2 ∧ cell.2 < region.colOffset + region.cols

instance (region : Region) (cell : Nat × Nat) : Decidable (region.Contains cell) :=
  inferInstanceAs (Decidable (_ ∧ _))

variable {region : Region} {parts : List Region}

theorem count_gridCells (region : Region) (cell : Nat × Nat) :
    region.gridCells.count cell = if region.Contains cell then 1 else 0 := by
  rw [(nodup_gridCells region).count]
  exact if_congr mem_gridCells rfl rfl

/-- Cells are counted in all parts together as often as there are parts they lie in. -/
theorem count_flatMap_gridCells (parts : List Region) (cell : Nat × Nat) :
    (parts.flatMap gridCells).count cell = parts.countP fun part => part.Contains cell := by
  induction parts with
  | nil => rfl
  | cons part parts ih =>
    rw [List.flatMap_cons, List.count_append, ih, count_gridCells, List.countP_cons, Nat.add_comm]
    simp only [decide_eq_true_eq]

/-- Some regions share out a region. -/
structure SharesOut (parts : List Region) (region : Region) : Prop where
  /-- Each of them has a cell. -/
  nonempty : ∀ part ∈ parts, 0 < part.rows ∧ 0 < part.cols
  /-- A cell of the region lies in one of them, any other cell in none. -/
  countP_contains : ∀ cell,
    (parts.countP fun part => part.Contains cell) = if region.Contains cell then 1 else 0

theorem Covers.sharesOut (h : Covers parts region)
    (hnonempty : ∀ part ∈ parts, 0 < part.rows ∧ 0 < part.cols) : SharesOut parts region where
  nonempty := hnonempty
  countP_contains cell := by
    rw [← count_flatMap_gridCells, h.count_eq, count_gridCells]

theorem extent_pos (h : ¬region.isEmpty = true) : 0 < region.rows ∧ 0 < region.cols := by
  have hsize : 0 < region.rows * region.cols :=
    Nat.pos_of_ne_zero fun hzero => h (decide_eq_true hzero)
  exact ⟨Nat.pos_of_mul_pos_right hsize, Nat.pos_of_mul_pos_left hsize⟩

/-! ### Strips -/

/-- What the strips of a region are like when so many are asked for. -/
structure IsStrips (region : Region) (count : Nat) (strips : List Region) : Prop where
  /-- They share out the region. -/
  sharesOut : SharesOut strips region
  /-- They have the width of the region. -/
  fullWidth : ∀ strip ∈ strips, strip.colOffset = region.colOffset ∧ strip.cols = region.cols
  /-- They are listed from top to bottom. -/
  topDown : strips.Pairwise fun upper lower => upper.rowOffset + upper.rows ≤ lower.rowOffset
  /-- There are as many as asked for, but at least one and no more than there are rows. -/
  length_eq : strips.length = if region.isEmpty then 0 else min (max count 1) region.rows
  /-- No strip is higher than another by more than one row. -/
  even : ∀ strip ∈ strips, ∀ other ∈ strips, strip.rows ≤ other.rows + 1

theorem length_stack (region : Region) : ∀ (heights : List Nat) (row : Nat),
    (region.stack row heights).length = heights.length
  | [], _ => rfl
  | _ :: heights, _ => congrArg (· + 1) (length_stack region heights _)

theorem mem_stack {strip : Region} : ∀ {heights : List Nat} {row : Nat},
    strip ∈ region.stack row heights → row ≤ strip.rowOffset ∧ strip.rows ∈ heights ∧
      strip.colOffset = region.colOffset ∧ strip.cols = region.cols
  | height :: heights, row, h => by
    rcases List.mem_cons.1 h with rfl | h
    · exact ⟨Nat.le_refl row, List.mem_cons_self, rfl, rfl⟩
    · obtain ⟨hrow, hheight, hwidth⟩ := mem_stack h
      exact ⟨Nat.le_of_add_right_le hrow, List.mem_cons_of_mem _ hheight, hwidth⟩

theorem pairwise_stack (region : Region) : ∀ (heights : List Nat) (row : Nat),
    (region.stack row heights).Pairwise fun upper lower =>
      upper.rowOffset + upper.rows ≤ lower.rowOffset
  | [], _ => .nil
  | _ :: heights, _ =>
    .cons (fun _ hlower => (mem_stack hlower).1) (pairwise_stack region heights _)

theorem mem_stripHeights {rows parts height : Nat} (h : height ∈ stripHeights rows parts) :
    rows / parts ≤ height ∧ height ≤ rows / parts + 1 := by
  obtain ⟨i, -, rfl⟩ := List.mem_map.1 h
  split <;> omega

theorem isStrips_strips (region : Region) (count : Nat) :
    IsStrips region count (region.strips count) := by
  have hcovers := covers_strips region count
  unfold strips at hcovers ⊢
  by_cases hempty : region.isEmpty = true
  · rw [if_pos hempty] at hcovers ⊢
    exact ⟨hcovers.sharesOut (List.forall_mem_nil _), List.forall_mem_nil _, .nil,
      (if_pos hempty).symm, List.forall_mem_nil _⟩
  · rw [if_neg hempty] at hcovers ⊢
    obtain ⟨hrows, hcols⟩ := extent_pos hempty
    generalize hparts : max 1 (min count region.rows) = parts at hcovers ⊢
    have hheight : 0 < region.rows / parts := Nat.div_pos (by omega) (by omega)
    refine ⟨hcovers.sharesOut fun strip hstrip => ?_, fun strip hstrip => (mem_stack hstrip).2.2,
      pairwise_stack _ _ _, ?_, fun strip hstrip other hother => ?_⟩
    · obtain ⟨-, hmem, -, hwidth⟩ := mem_stack hstrip
      have := mem_stripHeights hmem
      omega
    · rw [if_neg hempty, length_stack, stripHeights, List.length_map, List.length_range]
      omega
    · have := mem_stripHeights (mem_stack hstrip).2.1
      have := mem_stripHeights (mem_stack hother).2.1
      omega

/-! ### Tiles -/

/-- What the tiles of a region are like when a side is asked for. -/
structure IsTiling (region : Region) (size : Nat) (tiles : List Region) : Prop where
  /-- They share out the region. -/
  sharesOut : SharesOut tiles region
  /-- They are listed row by row, and from left to right in a row. -/
  rowMajor : tiles.Pairwise fun tile later => tile.rowOffset < later.rowOffset ∨
    tile.rowOffset = later.rowOffset ∧ tile.colOffset < later.colOffset
  /-- They have no side longer than asked for, a side of zero counting as one. -/
  sides : ∀ tile ∈ tiles, tile.rows ≤ max size 1 ∧ tile.cols ≤ max size 1
  /-- There are as many as are needed for the rows, times as many as are needed for the columns. -/
  length_eq : tiles.length = (region.rows ⌈/⌉ max size 1) * (region.cols ⌈/⌉ max size 1)

/-- The tile of side `size` that is number `i` from the top and number `j` from the left. -/
def tileAt (region : Region) (size i j : Nat) : Region :=
  ⟨region.rowOffset + i * size, region.colOffset + j * size, min size (region.rows - i * size),
    min size (region.cols - j * size)⟩

/-- Pieces are counted so long as they begin inside the extent. -/
theorem lt_ceilDiv_iff {size extent i : Nat} (hsize : 0 < size) :
    i < extent ⌈/⌉ size ↔ i * size < extent := by
  rw [← not_le, ceilDiv_le_iff_le_mul hsize, Nat.mul_comm, not_le]

theorem tiles_eq (h : ¬region.isEmpty = true) (size : Nat) : region.tiles size =
    (List.range (region.rows ⌈/⌉ max size 1)).flatMap fun i =>
      (List.range (region.cols ⌈/⌉ max size 1)).map (region.tileAt (max size 1) i) := by
  rw [tiles, if_neg h, spans, spans, List.flatMap_map, Nat.ceilDiv_eq_add_pred_div,
    Nat.ceilDiv_eq_add_pred_div]
  simp only [List.map_map]
  rfl

theorem tiles_of_isEmpty (h : region.isEmpty = true) (size : Nat) : region.tiles size = [] :=
  if_pos h

theorem isTiling_tiles (region : Region) (size : Nat) :
    IsTiling region size (region.tiles size) := by
  have hcovers := covers_tiles region size
  have hsize : 0 < max size 1 := by omega
  by_cases hempty : region.isEmpty = true
  · rw [tiles_of_isEmpty hempty] at hcovers ⊢
    refine ⟨hcovers.sharesOut (List.forall_mem_nil _), .nil, List.forall_mem_nil _, ?_⟩
    rcases Nat.mul_eq_zero.1 (of_decide_eq_true hempty) with hrows | hcols
    · rw [hrows, zero_ceilDiv, Nat.zero_mul]
      rfl
    · rw [hcols, zero_ceilDiv, Nat.mul_zero]
      rfl
  · rw [tiles_eq hempty] at hcovers ⊢
    have hmem : ∀ tile ∈ (List.range (region.rows ⌈/⌉ max size 1)).flatMap fun i =>
        (List.range (region.cols ⌈/⌉ max size 1)).map (region.tileAt (max size 1) i),
        ∃ i j, i * max size 1 < region.rows ∧ j * max size 1 < region.cols ∧
          tile = region.tileAt (max size 1) i j := by
      intro tile htile
      obtain ⟨i, hi, htile⟩ := List.mem_flatMap.1 htile
      obtain ⟨j, hj, rfl⟩ := List.mem_map.1 htile
      exact ⟨i, j, (lt_ceilDiv_iff hsize).1 (List.mem_range.1 hi),
        (lt_ceilDiv_iff hsize).1 (List.mem_range.1 hj), rfl⟩
    refine ⟨hcovers.sharesOut fun tile htile => ?_, ?_, fun tile htile => ?_, ?_⟩
    · obtain ⟨i, j, hi, hj, rfl⟩ := hmem tile htile
      simp only [tileAt]
      omega
    · refine List.pairwise_flatMap.2 ⟨fun i _ => List.pairwise_map.2 ?_, ?_⟩
      · refine List.pairwise_lt_range.imp fun hlt => Or.inr ⟨rfl, ?_⟩
        exact Nat.add_lt_add_left (Nat.mul_lt_mul_of_pos_right hlt hsize) _
      · refine List.pairwise_lt_range.imp fun hlt tile htile later hlater => Or.inl ?_
        obtain ⟨j, -, rfl⟩ := List.mem_map.1 htile
        obtain ⟨j', -, rfl⟩ := List.mem_map.1 hlater
        exact Nat.add_lt_add_left (Nat.mul_lt_mul_of_pos_right hlt hsize) _
    · obtain ⟨i, j, -, -, rfl⟩ := hmem tile htile
      exact ⟨Nat.min_le_left _ _, Nat.min_le_left _ _⟩
    · exact RowMajor.length_rows (fun i => by rw [List.length_map, List.length_range]) _

/-! ### Walking over tiles -/

end Region

/-- How far a walk over the tiles of a region has got: the place of the next tile, counted from the
first cell of the region. -/
structure TileWalk where
  /-- The row of the next tile. -/
  row : Nat
  /-- The column of the next tile. -/
  col : Nat

namespace TileWalk

/-- The next tile, cut off where the region ends, and how the walk goes on. -/
def next? (region : Region) (size : Nat) (w : TileWalk) : Option (Region × TileWalk) :=
  if region.isEmpty || region.rows ≤ w.row then none
  else
    some (⟨region.rowOffset + w.row, region.colOffset + w.col, min size (region.rows - w.row),
        min size (region.cols - w.col)⟩,
      if region.cols ≤ w.col + size then ⟨w.row + size, 0⟩ else ⟨w.row, w.col + size⟩)

/-- A walk takes some tiles, its counters being inside the region whenever it takes one, and then
it ends. -/
inductive Takes (region : Region) (size : Nat) : TileWalk → List Region → Prop where
  /-- There is no next tile. -/
  | done {w : TileWalk} : w.next? region size = none → Takes region size w []
  /-- There is a next tile. -/
  | step {w w' : TileWalk} {tile : Region} {tiles : List Region} :
      w.row < region.rows → w.col < region.cols → w.next? region size = some (tile, w') →
      Takes region size w' tiles → Takes region size w (tile :: tiles)

variable {region : Region} {size : Nat}

theorem next?_of_isEmpty (h : region.isEmpty = true) (w : TileWalk) :
    w.next? region size = none := by
  unfold next?
  rw [h, Bool.true_or, if_pos rfl]

theorem next?_of_le {w : TileWalk} (h : region.rows ≤ w.row) : w.next? region size = none := by
  unfold next?
  rw [decide_eq_true h, Bool.or_true, if_pos rfl]

/-- Inside the region there is a next tile. -/
theorem next?_tileAt {i j : Nat} (hi : i * size < region.rows) (hj : j * size < region.cols) :
    next? region size ⟨i * size, j * size⟩ = some (region.tileAt size i j,
      if region.cols ≤ (j + 1) * size then ⟨(i + 1) * size, 0⟩
      else ⟨i * size, (j + 1) * size⟩) := by
  have hnonempty : region.isEmpty = false :=
    decide_eq_false (Nat.mul_pos (Nat.zero_lt_of_lt hi) (Nat.zero_lt_of_lt hj)).ne'
  unfold next?
  rw [hnonempty, decide_eq_false (Nat.not_le.2 hi), if_neg (by decide), Nat.succ_mul, Nat.succ_mul]
  rfl

/-- A walk takes what is left of a row of tiles, of which there is a tile, and goes on with the next
row. -/
theorem takes_row (hsize : 0 < size) {i : Nat} (hi : i * size < region.rows) {more : List Region}
    (hmore : Takes region size ⟨(i + 1) * size, 0⟩ more) :
    ∀ (left j : Nat), j + (left + 1) = region.cols ⌈/⌉ size →
      Takes region size ⟨i * size, j * size⟩
        ((List.range' j (left + 1)).map (region.tileAt size i) ++ more)
  | left, j, hleft => by
    have hj : j * size < region.cols := (Region.lt_ceilDiv_iff hsize).1 (by omega)
    refine .step hi hj (next?_tileAt hi hj) ?_
    cases left with
    | zero =>
      have hlast : ¬(j + 1) * size < region.cols := by
        rw [← Region.lt_ceilDiv_iff hsize]
        omega
      rwa [if_pos (Nat.le_of_not_lt hlast)]
    | succ left =>
      have hnext : (j + 1) * size < region.cols := (Region.lt_ceilDiv_iff hsize).1 (by omega)
      rw [if_neg (Nat.not_le.2 hnext)]
      exact takes_row hsize hi hmore left (j + 1) (by omega)

/-- A walk takes what is left of the rows of tiles and ends. -/
theorem takes_rows (hsize : 0 < size) (hcols : 0 < region.cols) :
    ∀ (left i : Nat), i + left = region.rows ⌈/⌉ size →
      Takes region size ⟨i * size, 0⟩ ((List.range' i left).flatMap fun i =>
        (List.range (region.cols ⌈/⌉ size)).map (region.tileAt size i))
  | 0, i, hleft => by
    refine .done (next?_of_le (Nat.le_of_not_lt ?_))
    rw [← Region.lt_ceilDiv_iff hsize]
    omega
  | left + 1, i, hleft => by
    have hi : i * size < region.rows := (Region.lt_ceilDiv_iff hsize).1 (by omega)
    obtain ⟨m, hm⟩ : ∃ m, region.cols ⌈/⌉ size = m + 1 := by
      have : 0 < region.cols ⌈/⌉ size := (Region.lt_ceilDiv_iff hsize).2 (by omega)
      exact ⟨_, (Nat.sub_add_cancel this).symm⟩
    have hrow := takes_row hsize hi (takes_rows hsize hcols left (i + 1) (by omega)) m 0
      ((Nat.zero_add _).trans hm.symm)
    rwa [Nat.zero_mul, ← List.range_eq_range', ← hm] at hrow

end TileWalk

namespace Region

/-- **Walks**: a walk from the first cell of a region takes its tiles in order and then ends. -/
theorem takes_tiles (region : Region) (size : Nat) :
    TileWalk.Takes region (max size 1) ⟨0, 0⟩ (region.tiles size) := by
  by_cases hempty : region.isEmpty = true
  · rw [tiles_of_isEmpty hempty]
    exact .done (TileWalk.next?_of_isEmpty hempty _)
  · have hsize : 0 < max size 1 := by omega
    have hrows := TileWalk.takes_rows hsize (extent_pos hempty).2 _ 0 (Nat.zero_add _)
    rwa [Nat.zero_mul, ← List.range_eq_range', ← tiles_eq hempty] at hrows

/-- **Parts**: however many strips are asked for and whatever the side of tiles is, the strips of a
region and its tiles share it out; strips have its width, come from top to bottom and are of nearly
equal height, tiles come row by row, have no longer side than asked for and are taken by a walk that
ends. A region without cells has no parts. -/
theorem strips_and_tiles (region : Region) (count size : Nat) :
    IsStrips region count (region.strips count) ∧
      IsTiling region size (region.tiles size) ∧
      TileWalk.Takes region (max size 1) ⟨0, 0⟩ (region.tiles size) ∧
      (region.isEmpty = true → region.strips count = [] ∧ region.tiles size = []) :=
  ⟨isStrips_strips region count, isTiling_tiles region size, takes_tiles region size,
    fun hempty => ⟨if_pos hempty, tiles_of_isEmpty hempty size⟩⟩

example : tiles ⟨3, 2, 3, 5⟩ 2 =
    [⟨3, 2, 2, 2⟩, ⟨3, 4, 2, 2⟩, ⟨3, 6, 2, 1⟩, ⟨5, 2, 1, 2⟩, ⟨5, 4, 1, 2⟩, ⟨5, 6, 1, 1⟩] := rfl

end Region

end MapAlgebra
