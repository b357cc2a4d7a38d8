import Mathlib.Data.Nat.Basic

/-!
# Row by row

Windows, buffers, rasters and regions list the cells of a grid row by row. This module has what
their proofs share: where a cell stands in such a list, and which piece of the list is a row.
-/

namespace MapAlgebra.RowMajor

variable {α : Type}

/-! ### Places -/

/-- A cell of the grid has its place in the list. -/
theorem place_lt {rows cols row col : Nat} (hrow : row < rows) (hcol : col < cols) :
    row * cols + col < rows * cols := by
  have : (row + 1) * cols ≤ rows * cols := Nat.mul_le_mul_right cols hrow
  rw [Nat.add_mul] at this
  omega

/-- Two cells have two places. -/
theorem place_inj {cols row col row' col' : Nat} (hcol : col < cols) (hcol' : col' < cols)
    (h : row * cols + col = row' * cols + col') : row = row' ∧ col = col' := by
  have hdiv : ∀ r c, c < cols → (r * cols + c) / cols = r := fun r c hc => by
    rw [Nat.mul_comm, Nat.mul_add_div (by omega), Nat.div_eq_of_lt hc, Nat.add_zero]
  have hrow : row = row' := by rw [← hdiv row col hcol, h, hdiv row' col' hcol']
  subst hrow
  exact ⟨rfl, by omega⟩

/-- Every place is that of a cell of the grid. -/
theorem exists_place {rows cols n : Nat} (h : n < rows * cols) :
    ∃ row < rows, ∃ col < cols, n = row * cols + col := by
  have hcols : 0 < cols := by
    rcases Nat.eq_zero_or_pos cols with rfl | hpos
    · rw [Nat.mul_zero] at h
      omega
    · exact hpos
  refine ⟨n / cols, Nat.div_lt_of_lt_mul (Nat.mul_comm rows cols ▸ h), n % cols,
    Nat.mod_lt n hcols, ?_⟩
  rw [Nat.mul_comm, Nat.div_add_mod]

/-! ### Places in a stack of grids -/

/-- A cell of one of the grids has its place in the list. -/
theorem stack_lt {bands rows cols band row col : Nat} (hband : band < bands) (hrow : row < rows)
    (hcol : col < cols) : (band * rows + row) * cols + col < bands * rows * cols :=
  place_lt (place_lt hband hrow) hcol

/-- Two cells of the grids have two places. -/
theorem stack_inj {rows cols band row col band' row' col' : Nat} (hrow : row < rows)
    (hrow' : row' < rows) (hcol : col < cols) (hcol' : col' < cols)
    (h : (band * rows + row) * cols + col = (band' * rows + row') * cols + col') :
    band = band' ∧ row = row' ∧ col = col' := by
  obtain ⟨hplace, rfl⟩ := place_inj hcol hcol' h
  obtain ⟨rfl, rfl⟩ := place_inj hrow hrow' hplace
  exact ⟨rfl, rfl, rfl⟩

/-- Every place is that of a cell of one of the grids. -/
theorem exists_stack {bands rows cols n : Nat} (h : n < bands * rows * cols) :
    ∃ band < bands, ∃ row < rows, ∃ col < cols, n = (band * rows + row) * cols + col := by
  obtain ⟨place, hplace, col, hcol, rfl⟩ := exists_place h
  obtain ⟨band, hband, row, hrow, rfl⟩ := exists_place hplace
  exact ⟨band, hband, row, hrow, col, hcol, rfl⟩

/-! ### Rows -/

theorem length_rows {f : Nat → List α} {width : Nat} (hf : ∀ i, (f i).length = width) :
    ∀ rows, ((List.range rows).flatMap f).length = rows * width
  | 0 => by simp
  | rows + 1 => by
    rw [List.range_succ, List.flatMap_append, List.length_append, length_rows hf rows,
      Nat.add_mul]
    simp [hf]

/-- A row of a list that has been put together row by row. -/
theorem take_drop_rows {f : Nat → List α} {width : Nat} (hf : ∀ i, (f i).length = width) {i : Nat} :
    ∀ {rows}, i < rows → (((List.range rows).flatMap f).drop (i * width)).take width = f i
  | rows + 1, hi => by
    have hlen := length_rows hf rows
    rw [List.range_succ, List.flatMap_append]
    by_cases hlast : i = rows
    · subst hlast
      rw [List.drop_append_of_le_length (Nat.le_of_eq hlen.symm),
        List.drop_eq_nil_of_le (Nat.le_of_eq hlen)]
      simp [← hf i]
    · have hlt : i < rows := by omega
      have hle : (i + 1) * width ≤ rows * width := Nat.mul_le_mul_right width hlt
      rw [Nat.add_mul, Nat.one_mul] at hle
      rw [List.drop_append_of_le_length (by omega),
        List.take_append_of_le_length (by rw [List.length_drop]; omega)]
      exact take_drop_rows hf hlt

/-- A cell of a list that has been put together row by row. -/
theorem getElem?_rows {f : Nat → List α} {width : Nat} (hf : ∀ i, (f i).length = width)
    {rows row col : Nat} (hrow : row < rows) (hcol : col < width) :
    ((List.range rows).flatMap f)[row * width + col]? = (f row)[col]? := by
  rw [← take_drop_rows hf hrow, List.getElem?_take_of_lt hcol, List.getElem?_drop]

/-- A list of as many items as a grid has cells is told by its items at the places of cells. -/
theorem eq_rows {f : Nat → List α} {width : Nat} (hf : ∀ i, (f i).length = width) {rows : Nat}
    {l : List α} (hlength : l.length = rows * width)
    (h : ∀ row col, row < rows → col < width → l[row * width + col]? = (f row)[col]?) :
    l = (List.range rows).flatMap f := by
  refine List.ext_getElem? fun n => ?_
  by_cases hn : n < rows * width
  · obtain ⟨row, hrow, col, hcol, rfl⟩ := exists_place hn
    rw [h row col hrow hcol, getElem?_rows hf hrow hcol]
  · rw [List.getElem?_eq_none (by omega),
      List.getElem?_eq_none (by rw [length_rows hf]; omega)]

end MapAlgebra.RowMajor
