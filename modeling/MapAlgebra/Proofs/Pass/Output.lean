import MapAlgebra.Pass.Buffer
import MapAlgebra.Proofs.Region.Cells

/-!
# Writing buffers into outputs

**`Raster.write_eq_ok`** says what happens when a buffer is written into an output that has room for
its region: the write succeeds, every sample of the buffer is stored at its place, and every other
place keeps its sample. A write comes to a list of single stores (`Raster.write_eq_setAll`), so that
stores can be counted.
-/

namespace MapAlgebra.Raster

/-- Two rasters that differ in their samples only. -/
structure SameGrid (r r' : Raster) : Prop where
  /-- They have one type. -/
  pixelType : r'.pixelType = r.pixelType
  /-- They have equally many bands. -/
  bands : r'.bands = r.bands
  /-- They have equally many rows. -/
  rows : r'.rows = r.rows
  /-- They have equally many columns. -/
  cols : r'.cols = r.cols
  /-- They lie in one place. -/
  transform : r'.transform = r.transform
  /-- They mark missing data alike. -/
  noData? : r'.noData? = r.noData?

theorem SameGrid.refl (r : Raster) : r.SameGrid r := ⟨rfl, rfl, rfl, rfl, rfl, rfl⟩

theorem SameGrid.symm {r r' : Raster} (h : r.SameGrid r') : r'.SameGrid r :=
  ⟨h.pixelType.symm, h.bands.symm, h.rows.symm, h.cols.symm, h.transform.symm, h.noData?.symm⟩

theorem SameGrid.trans {r r' r'' : Raster} (h : r.SameGrid r') (h' : r'.SameGrid r'') :
    r.SameGrid r'' where
  pixelType := h'.pixelType.trans h.pixelType
  bands := h'.bands.trans h.bands
  rows := h'.rows.trans h.rows
  cols := h'.cols.trans h.cols
  transform := h'.transform.trans h.transform
  noData? := h'.noData?.trans h.noData?

variable {r r' : Raster} {band row col : Nat}

/-- A raster has a sample for a band and a cell. -/
def Has (r : Raster) (place : Nat × Nat × Nat) : Prop :=
  place.1 < r.bands ∧ place.2.1 < r.rows ∧ place.2.2 < r.cols

/-- The sample at a place, if there is one. -/
def at? (r : Raster) (place : Nat × Nat × Nat) : Option Float :=
  r.get? place.1 place.2.1 place.2.2

theorem at?_of_has {place : Nat × Nat × Nat} (h : r.Has place) :
    r.at? place = r.samples[r.index place.1 place.2.1 place.2.2]? := by
  unfold at? get?
  rw [if_pos (by simpa [Has, and_assoc] using h)]

theorem at?_of_not_has {place : Nat × Nat × Nat} (h : ¬r.Has place) : r.at? place = none := by
  unfold at? get?
  rw [if_neg (by simpa [and_assoc, Has] using h)]

/-- Rasters over one grid that have one sample at each place are equal. -/
theorem SameGrid.eq_of_at? (h : r.SameGrid r')
    (hat : ∀ place, r.Has place → r.at? place = r'.at? place) : r = r' := by
  obtain ⟨pixelType, bands, rows, cols, samples, hsize, transform, noData?⟩ := r
  obtain ⟨pixelType', bands', rows', cols', samples', hsize', transform', noData?'⟩ := r'
  obtain ⟨rfl, rfl, rfl, rfl, rfl, rfl⟩ := h
  dsimp only at hsize hsize'
  have hsamples : samples = samples' := by
    refine Array.ext_getElem? fun n => ?_
    by_cases hn : n < bands' * rows' * cols'
    · obtain ⟨band, hband, row, hrow, col, hcol, rfl⟩ := RowMajor.exists_stack hn
      have hplace := hat (band, row, col) ⟨hband, hrow, hcol⟩
      rw [at?_of_has ⟨hband, hrow, hcol⟩, at?_of_has ⟨hband, hrow, hcol⟩] at hplace
      exact hplace
    · rw [Array.getElem?_eq_none (by omega), Array.getElem?_eq_none (by omega)]
  subst hsamples
  rfl

/-! ### Writing one sample -/

/-- A raster with another sample at a place. -/
def putAt (r : Raster) (place : Nat × Nat × Nat) (x : Float) : Raster :=
  { r with
    samples := r.samples.setIfInBounds (r.index place.1 place.2.1 place.2.2) (r.pixelType.store x)
    size_samples := by rw [Array.size_setIfInBounds, r.size_samples] }

variable {place place' : Nat × Nat × Nat} {x : Float}

theorem sameGrid_putAt : r.SameGrid (r.putAt place x) := ⟨rfl, rfl, rfl, rfl, rfl, rfl⟩

/-- A write to a place that the raster has succeeds. -/
theorem set_of_has (h : r.Has place) :
    r.set place.1 place.2.1 place.2.2 x = .ok (r.putAt place x) := by
  unfold set
  rw [if_pos (by simpa [Has, and_assoc] using h)]
  rfl

theorem at?_putAt_self (h : r.Has place) :
    (r.putAt place x).at? place = some (r.pixelType.store x) := by
  have hhas : (r.putAt place x).Has place := h
  have hlt : r.index place.1 place.2.1 place.2.2 < r.samples.size := by
    rw [r.size_samples]
    exact RowMajor.stack_lt h.1 h.2.1 h.2.2
  rw [at?_of_has hhas]
  exact Array.getElem?_setIfInBounds_self_of_lt hlt

theorem at?_putAt_of_ne (h : r.Has place) (hne : place' ≠ place) :
    (r.putAt place x).at? place' = r.at? place' := by
  by_cases hhas : r.Has place'
  · have hhas' : (r.putAt place x).Has place' := hhas
    have hindex : r.index place.1 place.2.1 place.2.2 ≠ r.index place'.1 place'.2.1 place'.2.2 := by
      intro heq
      obtain ⟨hband, hrow, hcol⟩ := RowMajor.stack_inj h.2.1 hhas.2.1 h.2.2 hhas.2.2 heq
      exact hne (Prod.ext hband.symm (Prod.ext hrow.symm hcol.symm))
    rw [at?_of_has hhas', at?_of_has hhas]
    exact Array.getElem?_setIfInBounds_ne hindex
  · have hhas' : ¬(r.putAt place x).Has place' := hhas
    rw [at?_of_not_has hhas', at?_of_not_has hhas]

/-! ### Writing buffers -/

/-- Where a place of a buffer lies in an output, its first cell lying at `row` and `col`. -/
def target (row col : Nat) (place : Nat × Nat × Nat) : Nat × Nat × Nat :=
  (place.1, row + place.2.1, col + place.2.2)

theorem target_inj {place place' : Nat × Nat × Nat}
    (h : target row col place = target row col place') : place = place' := by
  unfold target at h
  rw [Prod.mk.injEq, Prod.mk.injEq, Nat.add_left_cancel_iff, Nat.add_left_cancel_iff] at h
  exact Prod.ext h.1 (Prod.ext h.2.1 h.2.2)

/-- Writing some places of a buffer, for which the output has room. -/
theorem writePlaces_eq_ok {b : Buffer} : ∀ {places : List (Nat × Nat × Nat)} {r : Raster},
    (∀ place ∈ places, r.Has (target row col place)) →
    ∃ r', r.writePlaces b row col places = .ok r' ∧ r.SameGrid r' ∧
      (∀ place ∈ places, r'.at? (target row col place) =
        some (r.pixelType.store (b.get place.1 place.2.1 place.2.2))) ∧
      ∀ place', (∀ place ∈ places, place' ≠ target row col place) → r'.at? place' = r.at? place'
  | [], r, _ => ⟨r, rfl, .refl r, fun _ h => absurd h List.not_mem_nil, fun _ _ => rfl⟩
  | place :: places, r, hroom => by
    have hfirst := hroom place List.mem_cons_self
    let mid := r.putAt (target row col place) (b.get place.1 place.2.1 place.2.2)
    have hroom' : ∀ p ∈ places, mid.Has (target row col p) :=
      fun p hp => hroom p (List.mem_cons_of_mem _ hp)
    obtain ⟨r', hrest, hgrid, hwritten, hkept⟩ := writePlaces_eq_ok hroom'
    refine ⟨r', ?_, sameGrid_putAt.trans hgrid, fun p hp => ?_, fun place' hne => ?_⟩
    · have hset : r.set place.1 (row + place.2.1) (col + place.2.2)
        (b.get place.1 place.2.1 place.2.2) = .ok mid := set_of_has hfirst
      unfold writePlaces
      rw [hset]
      exact hrest
    · by_cases hmem : p ∈ places
      · exact hwritten p hmem
      · obtain rfl : p = place := (List.mem_cons.1 hp).resolve_right hmem
        have hnot : ∀ p' ∈ places, target row col p ≠ target row col p' := by
          intro p' hp' heq
          exact hmem (target_inj heq ▸ hp')
        rw [hkept _ hnot]
        exact at?_putAt_self hfirst
    · rw [hkept place' fun p hp => hne p (List.mem_cons_of_mem _ hp)]
      exact at?_putAt_of_ne hfirst (hne place List.mem_cons_self)

theorem placesOf_eq_product (b : Buffer) :
    placesOf b = List.range b.bands ×ˢ b.region.cells := rfl

theorem mem_placesOf {b : Buffer} {place : Nat × Nat × Nat} : place ∈ placesOf b ↔
    place.1 < b.bands ∧ place.2.1 < b.region.rows ∧ place.2.2 < b.region.cols := by
  obtain ⟨band, cell⟩ := place
  rw [placesOf_eq_product, List.mem_product, List.mem_range, Region.mem_cells]

/-- No place of a buffer is listed twice. -/
theorem nodup_placesOf (b : Buffer) : (placesOf b).Nodup := by
  rw [placesOf_eq_product]
  exact List.nodup_range.product (Region.nodup_cells b.region)

/-- **Writing a buffer** into an output that has room for its places. -/
theorem write_eq_ok {b : Buffer} (hroom : ∀ place ∈ placesOf b, r.Has (target row col place)) :
    ∃ r', r.write b row col = .ok r' ∧ r.SameGrid r' ∧
      (∀ place ∈ placesOf b, r'.at? (target row col place) =
        some (r.pixelType.store (b.get place.1 place.2.1 place.2.2))) ∧
      ∀ place', (∀ place ∈ placesOf b, place' ≠ target row col place) →
        r'.at? place' = r.at? place' :=
  writePlaces_eq_ok hroom

/-! ### Stores -/

/-- A sample and the place of an output that it is stored at. -/
structure Store where
  /-- Band, row and column. -/
  place : Nat × Nat × Nat
  /-- The sample. -/
  sample : Float

/-- What is stored when a buffer is written, one sample after the other, its first cell lying at
`row` and `col`. -/
def storesOf (b : Buffer) (row col : Nat) : List Store :=
  (placesOf b).map fun place => ⟨target row col place, b.get place.1 place.2.1 place.2.2⟩

/-- Store samples one after the other. -/
def setAll (r : Raster) (stores : List Store) : Except RasterError Raster :=
  stores.foldlM (fun r s => r.set s.place.1 s.place.2.1 s.place.2.2 s.sample) r

theorem setAll_append (r : Raster) (stores stores' : List Store) :
    r.setAll (stores ++ stores') = r.setAll stores >>= (·.setAll stores') :=
  List.foldlM_append

/-- **Writing a buffer** is storing its samples one after the other. -/
theorem write_eq_setAll (r : Raster) (b : Buffer) (row col : Nat) :
    r.write b row col = r.setAll (storesOf b row col) := by
  unfold write storesOf
  induction placesOf b generalizing r with
  | nil => rfl
  | cons place places ih =>
    unfold writePlaces setAll
    rw [List.map_cons, List.foldlM_cons]
    unfold target
    dsimp only
    cases r.set place.1 (row + place.2.1) (col + place.2.2) (b.get place.1 place.2.1 place.2.2) with
    | ok mid => exact ih mid
    | error e => rfl

end MapAlgebra.Raster
