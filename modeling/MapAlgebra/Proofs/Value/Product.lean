import MapAlgebra.Proofs.RowMajor
import MapAlgebra.Proofs.Value.Alike
import MapAlgebra.Value.Arithmetic

/-!
# The matrix product

Main statement: **`Matrix.product_entrywise`**. Two matrices have a product exactly when the inner
sizes agree, and each cell of it is the sum of the products of cells of a row and a column, added up
from left to right starting with zero (`partialSum?`). Sums of doubles depend on the order of their
terms, so this says which order it is.

The product is also what comes out when terms are added in place to a flat list of sums, one row of
the right operand after the other (`sumInPlace?`). Each cell gets its terms at different times, and
other cells get theirs in between. What carries these loops is how many terms each sum has
(`turns`): it has the first so many terms of its entry (`Accumulated`). Cells are looked up with
their indices, so neither way gives anything if an index leaves a list.
-/

namespace MapAlgebra

/-- A loop that goes on from a state with an invariant, and keeps the invariant, comes to an end
with it. -/
theorem exists_foldlM_range {σ : Type} {f : σ → Nat → Option σ} {n : Nat} (Inv : Nat → σ → Prop)
    (hstep : ∀ k < n, ∀ s, Inv k s → ∃ s', f s k = some s' ∧ Inv (k + 1) s') {s : σ}
    (h : Inv 0 s) : ∃ s', (List.range n).foldlM f s = some s' ∧ Inv n s' := by
  induction n with
  | zero => exact ⟨s, rfl, h⟩
  | succ n ih =>
    obtain ⟨s', hs', hinv⟩ := ih fun k hk => hstep k (by omega)
    obtain ⟨s'', hs'', hinv'⟩ := hstep n (by omega) s' hinv
    refine ⟨s'', ?_, hinv'⟩
    rw [List.range_succ, List.foldlM_append, hs']
    simp [hs'']

namespace Matrix

variable {a b m p : Matrix} {i j k : Nat}

/-! ### Cells -/

theorem get?_eq (hi : i < m.rows) (hj : j < m.cols) : m.get? i j = m.cells[i * m.cols + j]? := by
  rw [get?, if_pos (by simp [hi, hj])]

theorem exists_get? (hi : i < m.rows) (hj : j < m.cols) : ∃ x, m.get? i j = some x := by
  have hplace : i * m.cols + j < m.cells.length := by
    rw [m.length_cells]
    exact RowMajor.place_lt hi hj
  rw [get?_eq hi hj]
  exact ⟨_, List.getElem?_eq_getElem hplace⟩

theorem getElem?_rowCells (hi : i < m.rows) (hj : j < m.cols) :
    (m.rowCells i)[j]? = m.get? i j := by
  rw [get?_eq hi hj, rowCells, List.getElem?_take_of_lt hj, List.getElem?_drop]

theorem getElem?_rowsOf (hi : i < m.rows) : m.rowsOf[i]? = some (m.rowCells i) := by
  rw [rowsOf, List.getElem?_map, List.getElem?_range hi]
  rfl

/-! ### Entries -/

/-- The first terms of an entry of a product, added up from left to right starting with zero. There
is no sum if an index leaves an operand. -/
def partialSum? (a b : Matrix) (i j terms : Nat) : Option Float :=
  (List.range terms).foldlM (fun sum k => do
    let x ← a.get? i k
    let y ← b.get? k j
    some (sum + x * y)) 0.0

theorem partialSum?_succ {x y : Float} (hx : a.get? i k = some x) (hy : b.get? k j = some y) :
    partialSum? a b i j (k + 1) = (partialSum? a b i j k).map (· + x * y) := by
  have hlast : partialSum? a b i j (k + 1) = (do
      let sum ← partialSum? a b i j k
      let x ← a.get? i k
      let y ← b.get? k j
      some (sum + x * y)) := by
    unfold partialSum?
    rw [List.range_succ, List.foldlM_append]
    simp only [List.foldlM_cons, List.foldlM_nil, bind_pure]
  rw [hlast, hx, hy]
  cases partialSum? a b i j k <;> rfl

/-- Terms are added to each entry of a combination of rows on its own. -/
theorem getElem?_foldl_addScaled (ps : List (Float × List Float)) (sums : List Float) (j : Nat) :
    (ps.foldl (fun sums p => addScaled sums p.1 p.2) sums)[j]? =
      sums[j]?.bind (ps.foldlM fun sum p => p.2[j]?.map (sum + p.1 * ·)) := by
  induction ps generalizing sums with
  | nil => simp
  | cons p ps ih =>
    rw [List.foldl_cons, ih, addScaled, List.getElem?_zipWith]
    cases sums[j]? with
    | none => rfl
    | some sum => cases hp : p.2[j]? <;> simp [hp]

theorem foldlM_take_eq_partialSum? (hinner : a.cols = b.rows) (hi : i < a.rows)
    (hj : j < b.cols) {terms : Nat} (hterms : terms ≤ a.cols) :
    (((a.rowCells i).zip b.rowsOf).take terms).foldlM
      (fun sum p => p.2[j]?.map (sum + p.1 * ·)) 0.0 = partialSum? a b i j terms := by
  induction terms with
  | zero => rfl
  | succ k ih =>
    have hk : k < a.cols := hterms
    have hk' : k < b.rows := hinner ▸ hk
    obtain ⟨x, hx⟩ := exists_get? hi hk
    obtain ⟨y, hy⟩ := exists_get? hk' hj
    have hterm : ((a.rowCells i).zip b.rowsOf)[k]? = some (x, b.rowCells k) :=
      List.getElem?_zip_eq_some.2 ⟨(getElem?_rowCells hi hk).trans hx, getElem?_rowsOf hk'⟩
    have hcell : (b.rowCells k)[j]? = some y := (getElem?_rowCells hk' hj).trans hy
    rw [List.take_add_one, hterm, List.foldlM_append, ih (by omega), partialSum?_succ hx hy]
    simp only [Option.toList_some, List.foldlM_cons, List.foldlM_nil, bind_pure, hcell]
    cases partialSum? a b i j k <;> rfl

/-- A cell of the combination of rows that makes a row of the product. -/
theorem getElem?_combine (hinner : a.cols = b.rows) (hi : i < a.rows) (hj : j < b.cols) :
    (combine b.cols (a.rowCells i) b.rowsOf)[j]? = partialSum? a b i j a.cols := by
  have hlength : ((a.rowCells i).zip b.rowsOf).length = a.cols := by
    rw [List.length_zip, length_rowCells hi, rowsOf, List.length_map, List.length_range, hinner,
      Nat.min_self]
  have hall := foldlM_take_eq_partialSum? hinner hi hj (Nat.le_refl _)
  rw [List.take_of_length_le (Nat.le_of_eq hlength)] at hall
  rw [combine, getElem?_foldl_addScaled, List.getElem?_replicate, if_pos hj]
  exact hall

theorem length_combine_rowsOf (a b : Matrix) (i : Nat) :
    (combine b.cols (a.rowCells i) b.rowsOf).length = b.cols :=
  length_combine _ _ fun _ => length_of_mem_rowsOf

/-- The product row by row. -/
theorem cells_of_product (h : a.product b = .ok p) :
    p.cells = (List.range a.rows).flatMap fun i => combine b.cols (a.rowCells i) b.rowsOf := by
  unfold product at h
  split at h
  · next hp =>
    cases h
    unfold product? ofCells? at hp
    split at hp
    · split at hp
      · cases hp
        exact List.flatMap_map ..
      · cases hp
    · cases hp
  · cases h

theorem get?_of_product (h : a.product b = .ok p) (hi : i < a.rows) (hj : j < b.cols) :
    p.get? i j = partialSum? a b i j a.cols := by
  obtain ⟨hinner, hshape⟩ := Value.shape_of_product h
  obtain ⟨hrows, hcols⟩ : p.rows = a.rows ∧ p.cols = b.cols := Shape.mk.inj hshape
  rw [get?_eq (hrows ▸ hi) (hcols ▸ hj), cells_of_product h, hcols,
    RowMajor.getElem?_rows (length_combine_rowsOf a b) hi hj, getElem?_combine hinner hi hj]

/-- Two pairs of matrices have the same row `i` on the left and the same column `j` on the right. -/
structure SameTerms (a b a' b' : Matrix) (i j : Nat) : Prop where
  /-- Both have the row. -/
  row_lt : i < a.rows ∧ i < a'.rows
  /-- Both have the column. -/
  col_lt : j < b.cols ∧ j < b'.cols
  /-- The rows have the same cells. -/
  row_eq : ∀ k, a.get? i k = a'.get? i k
  /-- The columns have the same cells. -/
  col_eq : ∀ k, b.get? k j = b'.get? k j

theorem SameTerms.partialSum?_eq {a' b' : Matrix} (h : SameTerms a b a' b' i j) (terms : Nat) :
    partialSum? a b i j terms = partialSum? a' b' i j terms := by
  simp only [partialSum?, h.row_eq, h.col_eq]

/-- A row tells how many columns there are. -/
theorem cols_le_of_get?_eq {m' : Matrix} (hi : i < m.rows)
    (h : ∀ k, m.get? i k = m'.get? i k) : m.cols ≤ m'.cols := by
  refine Nat.le_of_not_lt fun hlt => ?_
  obtain ⟨x, hx⟩ := exists_get? hi hlt
  have hnone : m'.get? i m'.cols = none := by simp [get?]
  rw [h, hnone] at hx
  cases hx

/-! ### Adding up in place -/

/-- Add `x` times a cell of row `k` of an operand to the sum of the same column in row `i`. -/
def addTerm? (b : Matrix) (i k : Nat) (x : Float) (sums : List Float) (j : Nat) :
    Option (List Float) := do
  let y ← b.cells[k * b.cols + j]?
  let sum ← sums[i * b.cols + j]?
  some (sums.set (i * b.cols + j) (sum + x * y))

/-- Add the terms of one cell of `a` to the sums of its row, column by column. -/
def addTerms? (a b : Matrix) (i : Nat) (sums : List Float) (k : Nat) : Option (List Float) := do
  let x ← a.cells[i * a.cols + k]?
  (List.range b.cols).foldlM (addTerm? b i k x) sums

/-- The cells of a product, added up in place in one list of sums, for each cell of `a` row by row.
There are none if an index leaves a list of cells. -/
def sumInPlace? (a b : Matrix) : Option (List Float) :=
  (List.range a.rows).foldlM
    (fun sums i => (List.range a.cols).foldlM (addTerms? a b i) sums)
    (List.replicate (a.rows * b.cols) 0.0)

/-- How many terms there are in the sum of each cell of a product, when the columns before `j` of
row `i` have got their term of column `k` of the left operand. -/
def turns (a : Matrix) (i k j : Nat) (row col : Nat) : Nat :=
  if row < i then a.cols else if row = i then (if col < j then k + 1 else k) else 0

/-- The sums of the first terms of entries, with as many terms for each as it had turns. -/
structure Accumulated (a b : Matrix) (terms : Nat → Nat → Nat) (sums : List Float) : Prop where
  /-- There is a sum for each cell of the product. -/
  length_eq : sums.length = a.rows * b.cols
  /-- It has the first terms of the entry. -/
  getElem?_eq : ∀ i < a.rows, ∀ j < b.cols,
    sums[i * b.cols + j]? = partialSum? a b i j (terms i j)

theorem Accumulated.congr {terms terms' : Nat → Nat → Nat} {sums : List Float}
    (h : Accumulated a b terms sums) (hterms : ∀ i < a.rows, ∀ j < b.cols, terms i j = terms' i j) :
    Accumulated a b terms' sums where
  length_eq := h.length_eq
  getElem?_eq i hi j hj := by rw [h.getElem?_eq i hi j hj, hterms i hi j hj]

theorem accumulated_zeros (a b : Matrix) :
    Accumulated a b (turns a 0 0 0) (List.replicate (a.rows * b.cols) 0.0) where
  length_eq := List.length_replicate
  getElem?_eq i hi j hj := by
    have hnone : turns a 0 0 0 i j = 0 := by simp [turns]
    rw [hnone, List.getElem?_replicate, if_pos (RowMajor.place_lt hi hj)]
    rfl

/-- One sum gets one term. -/
theorem Accumulated.addTerm {sums : List Float} (h : Accumulated a b (turns a i k j) sums)
    (hi : i < a.rows) (hk : k < b.rows) (hj : j < b.cols) {x : Float} (hx : a.get? i k = some x) :
    ∃ sums', addTerm? b i k x sums j = some sums' ∧
      Accumulated a b (turns a i k (j + 1)) sums' := by
  obtain ⟨y, hy⟩ := exists_get? hk hj
  have hplace : i * b.cols + j < sums.length := by
    rw [h.length_eq]
    exact RowMajor.place_lt hi hj
  obtain ⟨sum, hsum⟩ : ∃ sum, sums[i * b.cols + j]? = some sum :=
    ⟨_, List.getElem?_eq_getElem hplace⟩
  have hfirst : partialSum? a b i j k = some sum := by
    have hturns : turns a i k j i j = k := by simp [turns]
    rw [← hsum, h.getElem?_eq i hi j hj, hturns]
  refine ⟨sums.set (i * b.cols + j) (sum + x * y), ?_, ?_, fun row hrow col hcol => ?_⟩
  · rw [get?_eq hk hj] at hy
    rw [addTerm?, hy, hsum]
    rfl
  · rw [List.length_set, h.length_eq]
  · by_cases hcell : row = i ∧ col = j
    · obtain ⟨rfl, rfl⟩ := hcell
      have hturns : turns a row k (col + 1) row col = k + 1 := by simp [turns]
      rw [List.getElem?_set_self hplace, hturns, partialSum?_succ hx hy, hfirst]
      rfl
    · have hother : i * b.cols + j ≠ row * b.cols + col := fun heq => by
        obtain ⟨rfl, rfl⟩ := RowMajor.place_inj hj hcol heq
        exact hcell ⟨rfl, rfl⟩
      have hturns : turns a i k (j + 1) row col = turns a i k j row col := by
        unfold turns
        grind
      rw [List.getElem?_set_ne hother, h.getElem?_eq row hrow col hcol, hturns]

/-- The sums of one row get one term each. -/
theorem Accumulated.addTerms {sums : List Float} (h : Accumulated a b (turns a i k 0) sums)
    (hinner : a.cols = b.rows) (hi : i < a.rows) (hk : k < a.cols) :
    ∃ sums', addTerms? a b i sums k = some sums' ∧
      Accumulated a b (turns a i (k + 1) 0) sums' := by
  obtain ⟨x, hx⟩ := exists_get? hi hk
  obtain ⟨sums', hsums', hlast⟩ :=
    exists_foldlM_range (fun j => Accumulated a b (turns a i k j))
      (fun j hj sums hsums => hsums.addTerm hi (hinner ▸ hk) hj hx) h
  refine ⟨sums', ?_, hlast.congr fun row _ col hcol => ?_⟩
  · rw [get?_eq hi hk] at hx
    rw [addTerms?, hx]
    exact hsums'
  · simp [turns, hcol]

theorem exists_sumInPlace? (hinner : a.cols = b.rows) :
    ∃ sums, sumInPlace? a b = some sums ∧ Accumulated a b (fun _ _ => a.cols) sums := by
  have hrow : ∀ i < a.rows, ∀ sums, Accumulated a b (turns a i 0 0) sums →
      ∃ sums', (List.range a.cols).foldlM (addTerms? a b i) sums = some sums' ∧
        Accumulated a b (turns a (i + 1) 0 0) sums' := fun i hi sums h => by
    obtain ⟨sums', hsums', hlast⟩ :=
      exists_foldlM_range (fun k => Accumulated a b (turns a i k 0))
        (fun k hk sums hsums => hsums.addTerms hinner hi hk) h
    refine ⟨sums', hsums', hlast.congr fun row _ col _ => ?_⟩
    unfold turns
    grind
  obtain ⟨sums, hsums, hlast⟩ :=
    exists_foldlM_range (fun i => Accumulated a b (turns a i 0 0)) hrow (accumulated_zeros a b)
  exact ⟨sums, hsums, hlast.congr fun row hrow col _ => by simp [turns, hrow]⟩

/-- Adding up in place gives the product. -/
theorem sumInPlace?_of_product (h : a.product b = .ok p) : sumInPlace? a b = some p.cells := by
  have hinner := (Value.shape_of_product h).1
  obtain ⟨sums, hsums, hlast⟩ := exists_sumInPlace? hinner
  have hcells : sums = p.cells := by
    rw [cells_of_product h]
    refine RowMajor.eq_rows (length_combine_rowsOf a b) hlast.length_eq fun i j hi hj => ?_
    rw [hlast.getElem?_eq i hi j hj, getElem?_combine hinner hi hj]
  rw [hsums, hcells]

/-- A matrix is the product of two matrices. -/
structure IsProduct (a b p : Matrix) : Prop where
  /-- It has the rows of the one and the columns of the other. -/
  shape_eq : p.shape = ⟨a.rows, b.cols⟩
  /-- Its cells are sums of all terms of their entries. -/
  get?_eq : ∀ i < a.rows, ∀ j < b.cols,
    ∃ x, p.get? i j = some x ∧ partialSum? a b i j a.cols = some x
  /-- They are what adding up in place gives. -/
  sumInPlace?_eq : sumInPlace? a b = some p.cells

theorem isProduct_of_product (h : a.product b = .ok p) : IsProduct a b p where
  shape_eq := (Value.shape_of_product h).2
  get?_eq i hi j hj := by
    obtain ⟨hrows, hcols⟩ : p.rows = a.rows ∧ p.cols = b.cols :=
      Shape.mk.inj (Value.shape_of_product h).2
    obtain ⟨x, hx⟩ := exists_get? (hrows ▸ hi) (hcols ▸ hj)
    exact ⟨x, hx, (get?_of_product h hi hj).symm.trans hx⟩
  sumInPlace?_eq := sumInPlace?_of_product h

/-- There is no product only if the inner sizes differ. -/
theorem product_eq_error_iff : a.product b =
    .error (.dimensionality (.binary .multiply) (.operandRows a.cols) (.shape b.shape)) ↔
      a.cols ≠ b.rows := by
  constructor
  · intro h hinner
    obtain ⟨p, hp⟩ := Value.product_eq_ok hinner
    rw [hp] at h
    cases h
  · intro hne
    have hnone : a.product? b = none :=
      Option.not_isSome_iff_eq_none.1 (mt product?_isSome_iff.1 hne)
    rw [product, hnone]

/-- A cell of a product depends on one row and one column. -/
theorem SameTerms.get?_product_eq {a' b' p' : Matrix} (hsame : SameTerms a b a' b' i j)
    (h : a.product b = .ok p) (h' : a'.product b' = .ok p') : p.get? i j = p'.get? i j := by
  obtain ⟨hi, hi'⟩ := hsame.row_lt
  have hcols : a.cols = a'.cols := Nat.le_antisymm (cols_le_of_get?_eq hi hsame.row_eq)
    (cols_le_of_get?_eq hi' fun k => (hsame.row_eq k).symm)
  rw [get?_of_product h hi hsame.col_lt.1, get?_of_product h' hi' hsame.col_lt.2, hcols,
    hsame.partialSum?_eq]

/-- **The matrix product**: the operator `*` on two matrices fails exactly when the inner sizes
differ, and says so. Else its value is the product, each cell of which depends on one row of the
left and one column of the right operand only. -/
theorem product_entrywise (a b : Matrix) :
    BinaryOp.multiply.apply (.matrix a) (.matrix b) = (a.product b).map .matrix ∧
    (a.product b =
        .error (.dimensionality (.binary .multiply) (.operandRows a.cols) (.shape b.shape)) ↔
      a.cols ≠ b.rows) ∧
    (a.cols = b.rows → ∃ p, a.product b = .ok p ∧ IsProduct a b p) ∧
    ∀ (p a' b' p' : Matrix) (i j : Nat), a.product b = .ok p → a'.product b' = .ok p' →
      SameTerms a b a' b' i j → p.get? i j = p'.get? i j := by
  refine ⟨rfl, product_eq_error_iff, fun hinner => ?_, ?_⟩
  · obtain ⟨p, hp⟩ := Value.product_eq_ok hinner
    exact ⟨p, hp, isProduct_of_product hp⟩
  · exact fun p a' b' p' i j h h' hsame => hsame.get?_product_eq h h'

/-- The one is lost in the first sum and does not come back when the large terms cancel; what stands
in another column of the right operand does not matter. -/
theorem product_entrywise_cancellation :
    let a : Matrix := .row [1e16, 1.0, -1e16]
    let b : Matrix := ⟨3, 2, [1.0, 0.5, 1.0, Number.nan, 1.0, 2.0], rfl⟩
    let b' : Matrix := ⟨3, 1, [1.0, 1.0, 1.0], rfl⟩
    a.cols = b.rows ∧ a.cols = b'.rows ∧ SameTerms a b a b' 0 0 ∧
      ∃ p p', a.product b = .ok p ∧ a.product b' = .ok p' ∧ IsProduct a b p ∧
        p.get? 0 0 = some 0.0 ∧ p'.get? 0 0 = some 0.0 := by
  intro a b b'
  have hinner : a.cols = b.rows := rfl
  have hinner' : a.cols = b'.rows := rfl
  have hsame : SameTerms a b a b' 0 0 := by
    refine ⟨⟨Nat.zero_lt_one, Nat.zero_lt_one⟩, ⟨Nat.zero_lt_two, Nat.zero_lt_one⟩,
      fun _ => rfl, fun k => ?_⟩
    match k with
    | 0 | 1 | 2 => decide +kernel
    | k + 3 =>
      have hout : ¬ k + 3 < 3 := by omega
      simp [get?, b, b', hout]
  obtain ⟨-, -, hproduct, hlocal⟩ := product_entrywise a b
  obtain ⟨p, hp, hisProduct⟩ := hproduct hinner
  obtain ⟨p', hp', -⟩ := (product_entrywise a b').2.2.1 hinner'
  have hentry : partialSum? a b 0 0 a.cols = some 0.0 := by decide +kernel
  obtain ⟨x, hx, hx'⟩ := hisProduct.get?_eq 0 Nat.zero_lt_one 0 Nat.zero_lt_two
  have hcell : p.get? 0 0 = some 0.0 := hx.trans (hx'.symm.trans hentry)
  exact ⟨hinner, hinner', hsame, p, p', hp, hp', hisProduct, hcell,
    (hlocal p a b' p' 0 0 hp hp' hsame).symm.trans hcell⟩

end Matrix

end MapAlgebra
