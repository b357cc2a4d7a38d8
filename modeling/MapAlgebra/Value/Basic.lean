/-!
# Values

What a formula computes with: scalars and matrices of samples. A matrix lists its cells row by row
and carries the proof that it has as many as its shape says; a scalar and a matrix of one cell are
different values of the same shape.

The sides of a matrix have no bound, their product is a number of any size, and room for the cells
is never short. So `Matrix.constant` has a value for all sides, where a machine of 64 bits stops: it
allocates no list of more than `2 ^ 63 - 1` bytes, eight for each cell.
-/

namespace MapAlgebra

/-- How many rows and columns a value has; a scalar has one of each. -/
structure Shape where
  /-- The number of rows. -/
  rows : Nat
  /-- The number of columns. -/
  cols : Nat
  deriving DecidableEq, Repr

namespace Shape

/-- The shape of a scalar. -/
def single : Shape := ⟨1, 1⟩

/-- The number of cells. -/
def size (s : Shape) : Nat := s.rows * s.cols

/-- Rows by columns, as messages show a shape. -/
def text (s : Shape) : String := s!"{s.rows}x{s.cols}"

end Shape

/-- A matrix of samples. -/
structure Matrix where
  /-- The number of rows. -/
  rows : Nat
  /-- The number of columns. -/
  cols : Nat
  /-- The cells, row by row. -/
  cells : List Float
  /-- There are as many cells as the shape says. -/
  length_cells : cells.length = rows * cols

namespace Matrix

/-- The matrix of a shape with given cells, if they are as many as the shape says. -/
def ofCells? (rows cols : Nat) (cells : List Float) : Option Matrix :=
  if h : cells.length = rows * cols then some ⟨rows, cols, cells, h⟩ else none

/-- The matrix of one row. -/
def row (cells : List Float) : Matrix :=
  ⟨1, cells.length, cells, by simp⟩

/-- The matrix whose cells are all `x`. -/
def constant (rows cols : Nat) (x : Float) : Matrix :=
  ⟨rows, cols, List.replicate (rows * cols) x, by simp⟩

/-- The matrix of a shape filled with samples row by row, as far as they go; the cells left over
hold `rest`. -/
def filled (rows cols : Nat) (samples : List Float) (rest : Float) : Matrix :=
  ⟨rows, cols, (samples ++ List.replicate (rows * cols) rest).take (rows * cols), by simp⟩

/-- The shape of a matrix. -/
def shape (m : Matrix) : Shape := ⟨m.rows, m.cols⟩

/-- The cell at a row and a column, both from zero. -/
def get? (m : Matrix) (row col : Nat) : Option Float :=
  if row < m.rows && col < m.cols then m.cells[row * m.cols + col]? else none

/-- Apply a function to every cell. -/
def map (f : Float → Float) (m : Matrix) : Matrix :=
  ⟨m.rows, m.cols, m.cells.map f, by simp [m.length_cells]⟩

/-- Combine two matrices of one shape cell by cell. -/
def zipWith? (f : Float → Float → Float) (a b : Matrix) : Option Matrix :=
  if a.shape = b.shape then ofCells? a.rows a.cols (List.zipWith f a.cells b.cells) else none

/-! ### The matrix product -/

/-- The cells of row `i`. -/
def rowCells (m : Matrix) (i : Nat) : List Float :=
  (m.cells.drop (i * m.cols)).take m.cols

/-- All rows, top down. -/
def rowsOf (m : Matrix) : List (List Float) :=
  (List.range m.rows).map m.rowCells

/-- Add `x` times a row to a row of sums. -/
def addScaled (sums : List Float) (x : Float) (row : List Float) : List Float :=
  List.zipWith (fun s y => s + x * y) sums row

/-- The combination of rows of width `width` with given weights, summed from the first row to the
last and starting from zero. -/
def combine (width : Nat) (weights : List Float) (rows : List (List Float)) : List Float :=
  (weights.zip rows).foldl (fun sums p => addScaled sums p.1 p.2) (List.replicate width 0.0)

/-- The matrix product: each row is the combination of the rows of `b` whose weights stand in that
row of `a`. There is none unless `a` has as many columns as `b` has rows. -/
def product? (a b : Matrix) : Option Matrix :=
  if a.cols = b.rows then
    ofCells? a.rows b.cols (a.rowsOf.flatMap fun weights => combine b.cols weights b.rowsOf)
  else none

/-! ### Lengths of rows and products -/

theorem length_rowCells {m : Matrix} {i : Nat} (h : i < m.rows) :
    (m.rowCells i).length = m.cols := by
  have hcells := m.length_cells
  have : (i + 1) * m.cols ≤ m.rows * m.cols := Nat.mul_le_mul_right _ h
  simp only [rowCells, List.length_take, List.length_drop, hcells]
  rw [Nat.add_mul] at this
  omega

theorem length_of_mem_rowsOf {m : Matrix} {r : List Float} (h : r ∈ m.rowsOf) :
    r.length = m.cols := by
  obtain ⟨i, hi, rfl⟩ := List.mem_map.1 h
  exact length_rowCells (List.mem_range.1 hi)

theorem length_combine (width : Nat) (weights : List Float) {rows : List (List Float)}
    (h : ∀ r ∈ rows, r.length = width) : (combine width weights rows).length = width := by
  suffices H : ∀ (ps : List (Float × List Float)) (sums : List Float), sums.length = width →
      (∀ p ∈ ps, p.2.length = width) →
      (ps.foldl (fun sums p => addScaled sums p.1 p.2) sums).length = width from
    H _ _ (by simp) fun p hp => h p.2 (List.of_mem_zip hp).2
  intro ps
  induction ps with
  | nil => intro sums hs _; exact hs
  | cons p ps ih =>
    intro sums hs hp
    refine ih _ ?_ fun q hq => hp q (List.mem_cons_of_mem _ hq)
    simp [addScaled, hs, hp p List.mem_cons_self]

/-- The product exists exactly when the inner sizes agree. -/
theorem product?_isSome_iff {a b : Matrix} : (a.product? b).isSome ↔ a.cols = b.rows := by
  have hflat : ∀ rows : List (List Float),
      (rows.flatMap fun weights => combine b.cols weights b.rowsOf).length
        = rows.length * b.cols := by
    intro rows
    induction rows with
    | nil => simp
    | cons r rs ih =>
      rw [List.flatMap_cons, List.length_append, ih,
        length_combine _ _ fun _ => length_of_mem_rowsOf, List.length_cons, Nat.add_mul]
      omega
  unfold product? ofCells?
  split
  · next h => rw [dif_pos (by rw [hflat]; simp [rowsOf])]; simp [h]
  · next h => simp [h]

end Matrix

/-- A scalar or a matrix. -/
inductive Value where
  /-- One sample. -/
  | scalar (x : Float)
  /-- A matrix of samples. -/
  | matrix (m : Matrix)

namespace Value

/-- The shape of a value. -/
def shape : Value → Shape
  | .scalar _ => .single
  | .matrix m => m.shape

/-- Whether a value is a scalar. -/
def isScalar : Value → Bool
  | .scalar _ => true
  | .matrix _ => false

/-- The cells of a value, row by row. -/
def cells : Value → List Float
  | .scalar x => [x]
  | .matrix m => m.cells

/-- The row of given components, as a value. -/
def row (cells : List Float) : Value := .matrix (.row cells)

/-- The value of a shape whose cells are zero; `scalar` says whether it is a scalar. -/
def zeros (shape : Shape) (scalar : Bool) : Value :=
  if scalar then .scalar 0.0 else .matrix (.constant shape.rows shape.cols 0.0)

/-- The only cell of a scalar or of a matrix of one cell. -/
def asScalar? : Value → Option Float
  | .scalar x => some x
  | .matrix m => if m.shape = .single then m.cells.head? else none

/-- The components of a scalar or of a matrix of one row. -/
def asRow? : Value → Option (List Float)
  | .scalar x => some [x]
  | .matrix m => if m.rows = 1 then some m.cells else none

/-- Apply a function to every cell. -/
def map (f : Float → Float) : Value → Value
  | .scalar x => .scalar (f x)
  | .matrix m => .matrix (m.map f)

/-- Combine two values cell by cell. A scalar meets every cell of a matrix; two matrices must have
one shape. -/
def zipWith? (f : Float → Float → Float) : Value → Value → Option Value
  | .scalar x, .scalar y => some (.scalar (f x y))
  | .scalar x, .matrix b => some (.matrix (b.map (f x)))
  | .matrix a, .scalar y => some (.matrix (a.map (f · y)))
  | .matrix a, .matrix b => (Matrix.zipWith? f a b).map .matrix

/-- A value has as many cells as its shape says. -/
theorem length_cells (v : Value) : v.cells.length = v.shape.size := by
  cases v with
  | scalar x => rfl
  | matrix m => exact m.length_cells

end Value

end MapAlgebra
