import MapAlgebra.Pass.Buffer
import MapAlgebra.Proofs.RowMajor

/-!
# Buffers cell by cell

A buffer is written cell by cell, all bands of a cell at a time. Main statement:
**`Buffer.Holds.put`** says that a buffer that is written at one more cell holds there what was
written, and at the cells before what it held.
-/

namespace MapAlgebra.Buffer

/-- There is one sample for each band and cell. -/
def Full (b : Buffer) : Prop := b.samples.size = b.bands * b.region.rows * b.region.cols

theorem full_blank (region : Region) (bands : Nat) : (blank region bands).Full := by
  unfold Full blank Region.size
  rw [Array.size_replicate, Nat.mul_assoc]

/-! ### Writing one sample -/

/-- A buffer with another sample of a band at a cell. -/
def putAt (b : Buffer) (band row col : Nat) (x : Float) : Buffer :=
  { b with samples := b.samples.setIfInBounds (b.index band row col) x }

variable {b : Buffer} {band row col band' row' col' : Nat} {x : Float}

theorem putFrom_cons (xs : List Float) :
    b.putFrom row col band (x :: xs) = (b.putAt band row col x).putFrom row col (band + 1) xs := rfl

theorem full_putAt (hb : b.Full) : (b.putAt band row col x).Full :=
  (Array.size_setIfInBounds ..).trans hb

theorem get_putAt_self (hb : b.Full) (hband : band < b.bands) (hrow : row < b.region.rows)
    (hcol : col < b.region.cols) : (b.putAt band row col x).get band row col = x := by
  have hlt : b.index band row col < b.samples.size := by
    rw [hb]
    exact RowMajor.stack_lt hband hrow hcol
  show ((b.samples.setIfInBounds (b.index band row col) x)[b.index band row col]?).getD _ = x
  rw [Array.getElem?_setIfInBounds_self_of_lt hlt]
  rfl

theorem get_putAt_of_ne (hrow : row < b.region.rows) (hcol : col < b.region.cols)
    (hrow' : row' < b.region.rows) (hcol' : col' < b.region.cols)
    (hne : (row', col') ≠ (row, col) ∨ band' ≠ band) :
    (b.putAt band row col x).get band' row' col' = b.get band' row' col' := by
  have hindex : b.index band row col ≠ b.index band' row' col' := by
    intro h
    obtain ⟨rfl, rfl, rfl⟩ := RowMajor.stack_inj hrow hrow' hcol hcol' h
    rcases hne with hne | hne <;> exact hne rfl
  show ((b.samples.setIfInBounds (b.index band row col) x)[b.index band' row' col']?).getD _ = _
  rw [Array.getElem?_setIfInBounds_ne hindex]
  rfl

/-! ### Writing some bands of a cell -/

@[simp] theorem region_putFrom (row col : Nat) :
    ∀ (xs : List Float) (b : Buffer) (band : Nat), (b.putFrom row col band xs).region = b.region
  | [], _, _ => rfl
  | _ :: xs, _, band => region_putFrom row col xs _ (band + 1)

@[simp] theorem bands_putFrom (row col : Nat) :
    ∀ (xs : List Float) (b : Buffer) (band : Nat), (b.putFrom row col band xs).bands = b.bands
  | [], _, _ => rfl
  | _ :: xs, _, band => bands_putFrom row col xs _ (band + 1)

theorem full_putFrom (row col : Nat) : ∀ (xs : List Float) {b : Buffer} (band : Nat), b.Full →
    (b.putFrom row col band xs).Full
  | [], _, _, h => h
  | _ :: xs, _, band, h => full_putFrom row col xs (band + 1) (full_putAt h)

/-- What is written to some bands of a cell leaves the bands before and the other cells alone. -/
theorem get_putFrom_of_ne (hrow : row < b.region.rows) (hcol : col < b.region.cols)
    (hrow' : row' < b.region.rows) (hcol' : col' < b.region.cols)
    (hne : (row', col') ≠ (row, col) ∨ band' < band) (xs : List Float) :
    (b.putFrom row col band xs).get band' row' col' = b.get band' row' col' := by
  induction xs generalizing b band with
  | nil => rfl
  | cons x xs ih =>
    have hrest : ((b.putAt band row col x).putFrom row col (band + 1) xs).get band' row' col' =
        (b.putAt band row col x).get band' row' col' :=
      ih hrow hcol hrow' hcol' (hne.imp_right fun h => Nat.lt_succ_of_lt h)
    rw [putFrom_cons, hrest]
    exact get_putAt_of_ne hrow hcol hrow' hcol' (hne.imp_right fun h => Nat.ne_of_lt h)

/-- What is written to some bands of a cell is there afterwards. -/
theorem get_putFrom_self (hb : b.Full) (hrow : row < b.region.rows) (hcol : col < b.region.cols)
    {xs : List Float} (hxs : band + xs.length ≤ b.bands) {i : Nat} (hx : xs[i]? = some x) :
    (b.putFrom row col band xs).get (band + i) row col = x := by
  induction xs generalizing b band i with
  | nil => cases hx
  | cons y ys ih =>
    rw [List.length_cons] at hxs
    rw [putFrom_cons]
    cases i with
    | zero =>
      cases hx
      have hrest : ((b.putAt band row col x).putFrom row col (band + 1) ys).get band row col =
          (b.putAt band row col x).get band row col :=
        get_putFrom_of_ne (b := b.putAt band row col x) hrow hcol hrow hcol
          (Or.inr (Nat.lt_succ_self band)) ys
      exact hrest.trans (get_putAt_self hb (by omega) hrow hcol)
    | succ i =>
      rw [List.getElem?_cons_succ] at hx
      have hbands : band + 1 + ys.length ≤ (b.putAt band row col y).bands := by
        show band + 1 + ys.length ≤ b.bands
        omega
      have hrest := ih (full_putAt hb) hrow hcol hbands hx
      rwa [show band + 1 + i = band + (i + 1) by omega] at hrest

/-! ### Writing cells -/

/-- A buffer over a region that has, at every cell of `cells`, the samples that `f` gives for it. -/
structure Holds (b : Buffer) (region : Region) (bands : Nat) (f : Nat × Nat → List Float)
    (cells : List (Nat × Nat)) : Prop where
  /-- The region. -/
  region_eq : b.region = region
  /-- The number of bands. -/
  bands_eq : b.bands = bands
  /-- There is one sample for each band and cell. -/
  full : b.Full
  /-- The sample of a band at a cell. -/
  get_eq : ∀ cell ∈ cells, ∀ band < bands, (f cell)[band]? = some (b.get band cell.1 cell.2)

theorem holds_blank (region : Region) (bands : Nat) (f : Nat × Nat → List Float) :
    (blank region bands).Holds region bands f [] where
  region_eq := rfl
  bands_eq := rfl
  full := full_blank region bands
  get_eq _ h := absurd h List.not_mem_nil

variable {region : Region} {bands : Nat} {f : Nat × Nat → List Float} {cells : List (Nat × Nat)}

/-- Writing one more cell. A cell that is written again gets the same samples again. -/
theorem Holds.put (h : b.Holds region bands f cells) {cell : Nat × Nat}
    (hcells : ∀ cell ∈ cells, cell.1 < region.rows ∧ cell.2 < region.cols)
    (hcell : cell.1 < region.rows ∧ cell.2 < region.cols) (hf : (f cell).length = bands) :
    (b.put cell.1 cell.2 (f cell)).Holds region bands f (cells ++ [cell]) := by
  obtain ⟨rfl, rfl, hfull, hget⟩ := h
  have hself : ∀ band < b.bands,
      (f cell)[band]? = some ((b.put cell.1 cell.2 (f cell)).get band cell.1 cell.2) := by
    intro band hband
    obtain ⟨x, hx⟩ : ∃ x, (f cell)[band]? = some x :=
      ⟨_, List.getElem?_eq_getElem (hf ▸ hband)⟩
    have hput : (b.putFrom cell.1 cell.2 0 (f cell)).get (0 + band) cell.1 cell.2 = x :=
      get_putFrom_self hfull hcell.1 hcell.2 (by omega) hx
    rw [Nat.zero_add] at hput
    rw [hx, put, hput]
  refine ⟨region_putFrom _ _ _ _ _, bands_putFrom _ _ _ _ _, full_putFrom _ _ _ _ hfull,
    fun cell' hmem band hband => ?_⟩
  by_cases heq : cell' = cell
  · exact heq ▸ hself band hband
  · have hmem : cell' ∈ cells := by
      rcases List.mem_append.1 hmem with hmem | hmem
      · exact hmem
      · exact absurd (List.mem_singleton.1 hmem) heq
    obtain ⟨hrow, hcol⟩ := hcells cell' hmem
    rw [put, get_putFrom_of_ne hcell.1 hcell.2 hrow hcol (Or.inl heq)]
    exact hget cell' hmem band hband

end MapAlgebra.Buffer
