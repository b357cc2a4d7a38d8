import MapAlgebra.Proofs.Pass.Interpreter

/-!
# Convolutions at a cell

The value of a convolution as it would be written down: each cell of the kernel, row by row, times
the sample it lies on, added up in this order from the negative zero (`convolutionAt`). Samples are
looked up in the plane of all cells, which holds no number outside the grid (`Raster.planeSample`).

The interpreter pairs the cells of two matrices instead, whose shapes it does not look at. Main
statement: **`Catalog.evaluate_convolution`** says that it gives the sum written down on what a
declared matrix and a window are worth at a cell, provided that they have equally many cells. A
worker that stays in the grid, wherever in it it has been, has slots that hold what they are worth
(`Context.VisitedIn.evaluate_moveTo`).
-/

namespace MapAlgebra

/-! ### Samples of the plane -/

/-- The sample of a band at a place of the plane, taken from the list of samples, or what is no
number where the grid has no cell. -/
def Raster.planeSample (r : Raster) (band : Nat) (row col : Int) : Float :=
  if 0 ≤ row ∧ row < r.rows ∧ 0 ≤ col ∧ col < r.cols then
    r.samples.getD ((band * r.rows + row.toNat) * r.cols + col.toNat) Number.nan
  else Number.nan

/-- Samples are looked up in the plane. -/
theorem Raster.sampleAt_eq_planeSample (r : Raster) {band : Nat} (hband : band < r.bands)
    (row col : Int) : r.sampleAt band row col = r.planeSample band row col := by
  unfold sampleAt planeSample sample get? index
  by_cases hin : 0 ≤ row ∧ row < r.rows ∧ 0 ≤ col ∧ col < r.cols
  · have hrow : row.toNat < r.rows := by omega
    have hcol : col.toNat < r.cols := by omega
    simp [hin, hband, hrow, hcol]
  · rw [if_neg hin]
    split
    · next hpositive =>
      simp only [Bool.and_eq_true, decide_eq_true_eq] at hpositive
      rw [if_neg (by simp only [Bool.and_eq_true, decide_eq_true_eq]; omega), Option.getD_none]
    · rfl

/-! ### The sum -/

/-- The cell of a kernel, row by row, in row `i` and column `j` of a window around a cell, times the
sample of the band there. -/
def weightedSample (kernel : Matrix) (r : Raster) (band row col : Nat) (w : Window) (i j : Nat) :
    Float :=
  kernel.cells.getD (i * w.width + j) Number.nan *
    r.planeSample band ((row + i : Nat) - (w.height / 2 : Nat))
      ((col + j : Nat) - (w.width / 2 : Nat))

/-- The sum over a window around a cell, added up row by row from the negative zero. -/
def convolutionAt (kernel : Matrix) (r : Raster) (band row col : Nat) (w : Window) : Float :=
  (List.range w.height).foldl (fun sum i =>
    (List.range w.width).foldl (fun sum j =>
      sum + weightedSample kernel r band row col w i j) sum) (-0.0)

variable {kernel : Matrix} {r : Raster} {band row col : Nat} {w : Window}

/-- A sample of a window, in row `i` and column `j` of it. -/
theorem Raster.getElem?_windowAt (hband : band < r.bands) {i j : Nat} (hi : i < w.height)
    (hj : j < w.width) : (r.windowAt band row col w)[i * w.width + j]? =
      some (r.planeSample band ((row + i : Nat) - (w.height / 2 : Nat))
        ((col + j : Nat) - (w.width / 2 : Nat))) := by
  rw [windowAt, RowMajor.getElem?_rows length_windowRowAt hi hj, windowRowAt, List.getElem?_map,
    List.getElem?_range hj, Option.map_some, r.sampleAt_eq_planeSample hband]
  unfold Window.halfHeight Window.halfWidth
  congr 2 <;> push_cast <;> omega

/-- The products of the cells of a kernel and of a window, row by row. -/
theorem zipWith_windowAt (hband : band < r.bands)
    (hsize : kernel.cells.length = w.height * w.width) :
    List.zipWith (· * ·) kernel.cells (r.windowAt band row col w) =
      (List.range w.height).flatMap fun i =>
        (List.range w.width).map (weightedSample kernel r band row col w i) := by
  have hrows : ∀ i, ((List.range w.width).map
      (weightedSample kernel r band row col w i)).length = w.width := fun i => by simp
  refine RowMajor.eq_rows hrows ?_ fun i j hi hj => ?_
  · rw [List.length_zipWith, hsize, Raster.length_windowAt, Nat.min_self]
  · have hcell : i * w.width + j < kernel.cells.length := by
      rw [hsize]
      exact RowMajor.place_lt hi hj
    rw [List.getElem?_zipWith, Raster.getElem?_windowAt hband hi hj, List.getElem?_map,
      List.getElem?_range hj, List.getElem?_eq_getElem hcell, Option.map_some, weightedSample,
      List.getD_eq_getElem?_getD, List.getElem?_eq_getElem hcell, Option.getD_some]

/-- The cells of a kernel and of a window, paired, give the sum. -/
theorem weightedSum_windowMatrix (hband : band < r.bands)
    (hsize : kernel.rows * kernel.cols = w.width * w.height) :
    weightedSum (.matrix kernel) (.matrix (r.windowMatrix band row col w)) =
      .ok (convolutionAt kernel r band row col w) := by
  have hcells : kernel.cells.length = w.height * w.width := by
    rw [kernel.length_cells, hsize, Nat.mul_comm]
  have hlength : (Value.matrix (r.windowMatrix band row col w)).cells.length =
      (Value.matrix kernel).cells.length := by
    show (r.windowAt band row col w).length = kernel.cells.length
    rw [Raster.length_windowAt, hcells]
  unfold weightedSum
  rw [if_pos hlength]
  show Except.ok (sumSamples (List.zipWith (· * ·) kernel.cells (r.windowAt band row col w))) = _
  rw [zipWith_windowAt hband hcells, sumSamples, Scalar.sumFrom, List.foldl_flatMap]
  simp only [List.foldl_map]
  rfl

/-! ### Evaluation -/

/-- The call of a convolution pairs the cells of its two variables. -/
theorem Expr.Tree.eval_convolution {branching : Branching} {slots : Array Value} {a b : Nat}
    {x y : Value} (ha : slots[a]? = some x) (hb : slots[b]? = some y) :
    (Tree.call .conv [.variable a, .variable b]).eval branching slots =
      (weightedSum x y).map fun sum => .row [sum] := by
  have hargs : evalAll branching slots [.variable a, .variable b] = .ok [x, y] := by
    simp only [evalAll, eval, ha, hb]
    rfl
  have hwindows : [y].mapM (weightedSum x) = (weightedSum x y).map fun sum => [sum] := by
    rw [List.mapM_cons, List.mapM_nil]
    cases weightedSum x y <;> rfl
  unfold eval
  rw [hargs]
  show convolve x [y] = _
  unfold convolve
  rw [hwindows]
  cases weightedSum x y <;> rfl

/-- **Convolutions**: on what a declared matrix and a window of equally many cells are worth at a
cell, their convolution is the sum over the window. -/
theorem Catalog.evaluate_convolution {c : Catalog} {a b : Nat} {v v' : Variable} {key : WindowKey}
    {s : Source} (hkernel : c.slots[a]? = some v) (hmatrix : v.kind = .matrix kernel)
    (hwindow : c.slots[b]? = some v') (hkey : v'.kind = .window key)
    (hs : c.inputs[key.image]? = some s) (hband : key.band < s.raster.bands)
    (hsize : kernel.rows * kernel.cols = key.window.width * key.window.height) (row col : Nat) :
    Expr.Program.evaluate ⟨.call .conv [.variable a, .variable b]⟩ (c.slotsAt row col) =
      .ok (.row [convolutionAt kernel s.raster key.band row col key.window]) := by
  have ha : (c.slotsAt row col)[a]? = some (.matrix kernel) := by
    rw [c.getElem?_slotsAt, hkernel, Option.map_some, hmatrix]
    rfl
  have hb : (c.slotsAt row col)[b]? =
      some (.matrix (s.raster.windowMatrix key.band row col key.window)) := by
    rw [c.getElem?_slotsAt, hwindow, Option.map_some, hkey]
    simp [Kind.valueAt, hs]
  show (Expr.Tree.call .conv [.variable a, .variable b]).eval .selected (c.slotsAt row col) = _
  rw [Expr.Tree.eval_convolution ha hb, weightedSum_windowMatrix hband hsize]
  rfl

/-! ### Workers -/

namespace Context

/-- What a worker keeps that begins afresh and visits cells of the grid, as cells of any regions and
in any order. -/
inductive VisitedIn (inputs : List Source) (plan : Plan) : Context → Prop where
  /-- No cell has been visited. -/
  | fresh : VisitedIn inputs plan (.fresh plan)
  /-- One more cell has been visited. -/
  | visit {p : Progress} {region : Region} {cell : Nat × Nat} :
      InGrids inputs (region.rowOffset + cell.1) (region.colOffset + cell.2) →
      VisitedIn inputs plan p.context →
      VisitedIn inputs plan (p.visit plan region cell).context

variable {c : Catalog} {es : List Compiled} {plan : Plan} {ctx : Context}

/-- A worker that has stayed in the grid is sound. -/
theorem VisitedIn.sound (hplan : Plan.ofCompiled c es = .ok plan)
    (h : ctx.VisitedIn c.inputs plan) : ctx.Sound c plan := by
  have hrenews := (Plan.renews_of_ofCompiled hplan).1
  induction h with
  | fresh => exact sound_fresh hrenews
  | visit hcell _ ih =>
    have hmoved := sound_moveTo hrenews ih hcell
    exact ⟨hmoved.size_slots, hmoved.kept, hmoved.cache⟩

/-- When a worker moves to a cell, a formula has the value there that it has on what the slots are
worth, wherever in the grid the worker has been before. -/
theorem VisitedIn.evaluate_moveTo (hplan : Plan.ofCompiled c es = .ok plan)
    (h : ctx.VisitedIn c.inputs plan) {e : Compiled} (he : e ∈ es)
    (hcell : InGrids c.inputs row col) :
    e.program.evaluate (ctx.moveTo plan row col).slots =
      e.program.evaluate (c.slotsAt row col) :=
  e.program.evaluate_congr
    (agreeOn_moveTo (Plan.renews_of_ofCompiled hplan).1 (h.sound hplan) hcell he)

end Context

end MapAlgebra
