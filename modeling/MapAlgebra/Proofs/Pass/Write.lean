import MapAlgebra.Proofs.Pass.Buffer
import MapAlgebra.Proofs.Pass.Output
import MapAlgebra.Proofs.Raster.Conversion
import MapAlgebra.Proofs.Result

/-!
# What a write leaves behind

A buffer and the output it is written into list their samples with strides of their own. `Written`
says cell by cell what an output is like after a buffer has been written into it, and so what two
writes one after the other leave. Main statement: **`Raster.write_stores`** says that a buffer that
fits is written, that the samples of its cells are stored and no other is touched, and that buffers
for different cells may be written in any order.
-/

namespace MapAlgebra

/-- The cells of an output that a buffer is for, its first cell lying at `row` and `col`. -/
def Buffer.footprint (b : Buffer) (row col : Nat) : Region :=
  ⟨row, col, b.region.rows, b.region.cols⟩

namespace Raster

/-- An output has the bands of a buffer, and room for its cells at `row` and `col`. -/
structure Fits (r : Raster) (b : Buffer) (row col : Nat) : Prop where
  /-- They have equally many bands. -/
  bands : b.bands = r.bands
  /-- The rows end inside the output. -/
  rows : row + b.region.rows ≤ r.rows
  /-- The columns end inside the output. -/
  cols : col + b.region.cols ≤ r.cols

/-- What an output `r` is like after a buffer has been written into it at `row` and `col`. -/
structure Written (r r' : Raster) (b : Buffer) (row col : Nat) : Prop where
  /-- Shape, type, place and mark for missing data stay. -/
  sameGrid : r.SameGrid r'
  /-- The samples of the buffer are stored. -/
  stored : ∀ band i j, band < b.bands → i < b.region.rows → j < b.region.cols →
    r'.get? band (row + i) (col + j) = some (r.pixelType.store (b.get band i j))
  /-- The samples of all other cells stay. -/
  kept : ∀ band cell, cell ∉ (b.footprint row col).gridCells →
    r'.get? band cell.1 cell.2 = r.get? band cell.1 cell.2

variable {r r' : Raster} {b b' : Buffer} {row col row' col' : Nat}

/-- The place of the buffer that lies at a cell of the output. -/
theorem mem_footprint {cell : Nat × Nat} (h : cell ∈ (b.footprint row col).gridCells) :
    ∃ i < b.region.rows, ∃ j < b.region.cols, cell = (row + i, col + j) := by
  obtain ⟨inner, hinner, rfl⟩ := List.mem_map.1 h
  obtain ⟨hi, hj⟩ := Region.mem_cells.1 hinner
  exact ⟨inner.1, hi, inner.2, hj, rfl⟩

theorem Fits.has_target (h : r.Fits b row col) :
    ∀ place ∈ placesOf b, r.Has (target row col place) := by
  intro place hplace
  obtain ⟨hband, hi, hj⟩ := mem_placesOf.1 hplace
  have hrows := h.rows
  have hcols := h.cols
  refine ⟨h.bands ▸ hband, ?_, ?_⟩
  · show row + place.2.1 < r.rows
    omega
  · show col + place.2.2 < r.cols
    omega

/-- A buffer that fits is written. -/
theorem Fits.exists_written (h : r.Fits b row col) :
    ∃ r', r.write b row col = .ok r' ∧ r.Written r' b row col := by
  obtain ⟨r', hwrite, hgrid, hwritten, hkept⟩ := write_eq_ok h.has_target
  refine ⟨r', hwrite, hgrid, fun band i j hband hi hj => ?_, fun band cell hcell => ?_⟩
  · exact hwritten (band, i, j) (mem_placesOf.2 ⟨hband, hi, hj⟩)
  · refine hkept (band, cell) fun place hplace heq => hcell ?_
    obtain ⟨-, hi, hj⟩ := mem_placesOf.1 hplace
    have htarget : cell = (row + place.2.1, col + place.2.2) := congrArg Prod.snd heq
    rw [htarget]
    have hcell : (place.2.1, place.2.2) ∈ (b.footprint row col).cells :=
      Region.mem_cells.2 ⟨hi, hj⟩
    exact Region.toGrid_mem_gridCells hcell

/-- A write leaves room for what there was room for. -/
theorem Fits.of_sameGrid (h : r.Fits b row col) (hgrid : r.SameGrid r') : r'.Fits b row col :=
  ⟨hgrid.bands ▸ h.bands, hgrid.rows ▸ h.rows, hgrid.cols ▸ h.cols⟩

/-! ### Two writes -/

variable {first second first' second' : Raster}

/-- Two writes to different cells: the one for a cell stores there what it stores, whether it comes
first or second. -/
theorem Written.get?_swap (h₁ : r.Written first b row col)
    (h₂ : first.Written second b' row' col') (h₁' : r.Written first' b' row' col')
    (h₂' : first'.Written second' b row col)
    (hdisjoint : (b.footprint row col).gridCells.Disjoint (b'.footprint row' col').gridCells)
    {band : Nat} (hband : band < b.bands) {cell : Nat × Nat}
    (hcell : cell ∈ (b.footprint row col).gridCells) :
    second.get? band cell.1 cell.2 = second'.get? band cell.1 cell.2 := by
  rw [h₂.kept band cell (hdisjoint hcell)]
  obtain ⟨i, hi, j, hj, rfl⟩ := mem_footprint hcell
  rw [h₁.stored band i j hband hi hj, h₂'.stored band i j hband hi hj, h₁'.sameGrid.pixelType]

/-- Two writes to different cells leave the same, in either order. -/
theorem Written.comm (h₁ : r.Written first b row col) (h₂ : first.Written second b' row' col')
    (h₁' : r.Written first' b' row' col') (h₂' : first'.Written second' b row col)
    (hdisjoint : (b.footprint row col).gridCells.Disjoint (b'.footprint row' col').gridCells)
    (hbands : b.bands = r.bands) (hbands' : b'.bands = r.bands) : second = second' := by
  have hgrid : r.SameGrid second := h₁.sameGrid.trans h₂.sameGrid
  have hgrid' : r.SameGrid second' := h₁'.sameGrid.trans h₂'.sameGrid
  refine (hgrid.symm.trans hgrid').eq_of_at? fun ⟨band, cell⟩ hhas => ?_
  have hband : band < r.bands := hgrid.bands ▸ hhas.1
  show second.get? band cell.1 cell.2 = second'.get? band cell.1 cell.2
  by_cases hcell : cell ∈ (b.footprint row col).gridCells
  · exact h₁.get?_swap h₂ h₁' h₂' hdisjoint (hbands ▸ hband) hcell
  by_cases hcell' : cell ∈ (b'.footprint row' col').gridCells
  · have hdisjoint' : (b'.footprint row' col').gridCells.Disjoint
      (b.footprint row col).gridCells := fun _ h h' => hdisjoint h' h
    exact (h₁'.get?_swap h₂' h₁ h₂ hdisjoint' (hbands' ▸ hband) hcell').symm
  · rw [h₂.kept band cell hcell', h₁.kept band cell hcell, h₂'.kept band cell hcell,
      h₁'.kept band cell hcell']

/-- **Writing a buffer** that fits succeeds; it stores the samples of the buffer, each of which the
buffer has if it has one for each band and cell, and touches nothing else. A cell keeps of a sample
what its type can hold. Buffers for different cells may be written in any order. -/
theorem write_stores (r : Raster) (b : Buffer) (row col : Nat) (hfits : r.Fits b row col) :
    (∃ r', r.write b row col = .ok r' ∧ r.Written r' b row col ∧
      ∀ band i j, band < b.bands → i < b.region.rows → j < b.region.cols →
        ∃ y, r'.get? band (row + i) (col + j) = some y ∧
          r.pixelType.Keeps (b.get band i j) y) ∧
    (b.bands * b.region.rows * b.region.cols ≤ b.samples.size → ∀ band i j, band < b.bands →
      i < b.region.rows → j < b.region.cols →
      b.samples[(band * b.region.rows + i) * b.region.cols + j]? = some (b.get band i j)) ∧
    ∀ b' row' col', r.Fits b' row' col' →
      (b.footprint row col).gridCells.Disjoint (b'.footprint row' col').gridCells →
      ∃ r', (r.write b row col >>= (·.write b' row' col')) = .ok r' ∧
        (r.write b' row' col' >>= (·.write b row col)) = .ok r' := by
  refine ⟨?_, fun hsize band i j hband hi hj => ?_, fun b' row' col' hfits' hdisjoint => ?_⟩
  · obtain ⟨r', hwrite, hwritten⟩ := hfits.exists_written
    refine ⟨r', hwrite, hwritten, fun band i j hband hi hj => ?_⟩
    exact ⟨_, hwritten.stored band i j hband hi hj, r.pixelType.keeps_store _⟩
  · have hlt := Nat.lt_of_lt_of_le (RowMajor.stack_lt hband hi hj) hsize
    unfold Buffer.get Buffer.index
    rw [Array.getElem?_eq_getElem hlt]
    rfl
  · obtain ⟨first, hwrite, h₁⟩ := hfits.exists_written
    obtain ⟨first', hwrite', h₁'⟩ := hfits'.exists_written
    obtain ⟨second, hsecond, h₂⟩ := (hfits'.of_sameGrid h₁.sameGrid).exists_written
    obtain ⟨second', hsecond', h₂'⟩ := (hfits.of_sameGrid h₁'.sameGrid).exists_written
    obtain rfl : second = second' := h₁.comm h₂ h₁' h₂' hdisjoint hfits.bands hfits'.bands
    exact ⟨second, bind_eq_ok_iff.2 ⟨first, hwrite, hsecond⟩,
      bind_eq_ok_iff.2 ⟨first', hwrite', hsecond'⟩⟩

/-- Two cells side by side in an output of bytes, in either order. The fraction of one is cut off,
and the other is no number. -/
theorem write_stores_beside :
    let r := Raster.output .u8 1 2 2 .unit
    let b : Buffer := ⟨⟨3, 3, 1, 1⟩, 1, #[254.6]⟩
    let b' : Buffer := ⟨⟨3, 4, 1, 1⟩, 1, #[Number.nan]⟩
    r.Fits b 1 0 ∧ r.Fits b' 1 1 ∧
      (b.footprint 1 0).gridCells.Disjoint (b'.footprint 1 1).gridCells ∧
      ∃ r', (r.write b 1 0 >>= (·.write b' 1 1)) = .ok r' ∧
        (r.write b' 1 1 >>= (·.write b 1 0)) = .ok r' ∧
        r'.get? 0 1 0 = some 254.0 ∧ r'.get? 0 1 1 = some 0.0 := by
  intro r b b'
  have hfits : r.Fits b 1 0 := ⟨rfl, by decide, by decide⟩
  have hfits' : r.Fits b' 1 1 := ⟨rfl, by decide, by decide⟩
  have hdisjoint : (b.footprint 1 0).gridCells.Disjoint (b'.footprint 1 1).gridCells := by
    intro cell hcell hcell'
    rw [Region.mem_gridCells] at hcell hcell'
    obtain ⟨-, -, hcol⟩ := hcell
    obtain ⟨-, hcol', -⟩ := hcell'
    change cell.2 < 0 + 1 at hcol
    change 1 ≤ cell.2 at hcol'
    omega
  obtain ⟨⟨first, hwrite, hfirst, -⟩, -, hcomm⟩ := write_stores r b 1 0 hfits
  obtain ⟨⟨second, hwrite', hsecond, -⟩, -⟩ :=
    write_stores first b' 1 1 (hfits'.of_sameGrid hfirst.sameGrid)
  obtain ⟨r', hr', hr''⟩ := hcomm b' 1 1 hfits' hdisjoint
  obtain rfl : second = r' := by
    have hboth : (r.write b 1 0 >>= (·.write b' 1 1)) = .ok second :=
      bind_eq_ok_iff.2 ⟨first, hwrite, hwrite'⟩
    exact Except.ok.inj (hboth.symm.trans hr')
  have hbyte : PixelType.u8.store 254.6 = 254.0 := by decide +kernel
  have hzero : PixelType.u8.store Number.nan = 0.0 := by decide +kernel
  refine ⟨hfits, hfits', hdisjoint, second, hr', hr'', ?_, ?_⟩
  · have hcell : (1, 0) ∈ (b.footprint 1 0).gridCells := Region.mem_gridCells.2 (by decide)
    have hkept := hsecond.kept 0 (1, 0) (hdisjoint hcell)
    rw [hkept, ← hbyte]
    exact hfirst.stored 0 0 0 Nat.one_pos Nat.one_pos Nat.one_pos
  · have hstored := hsecond.stored 0 0 0 Nat.one_pos Nat.one_pos Nat.one_pos
    have hpixel : first.pixelType = .u8 := hfirst.sameGrid.pixelType
    rwa [hpixel, show b'.get 0 0 0 = Number.nan from rfl, hzero] at hstored

end Raster

end MapAlgebra
