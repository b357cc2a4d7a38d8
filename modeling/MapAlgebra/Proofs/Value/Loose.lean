import MapAlgebra.Proofs.Value.Occupied
import MapAlgebra.Proofs.Value.Product

/-!
# Values that count nothing

The cells of a matrix are as many as its shape says, and its type carries the proof. This module has
values without that proof (`Loose`), put together and read by index as they come: an index may leave
a list of cells, and then there is no outcome at all (`Loose.Access`). Main statement:
**`Loose.applyBinary_loose`**. On values that do count their cells, the operators look up nothing
that is not there, and the outcome is the one they have.
-/

namespace MapAlgebra.Loose

/-! ### Values -/

/-- Rows, columns and cells. -/
structure Block where
  /-- The number of rows. -/
  rows : Nat
  /-- The number of columns. -/
  cols : Nat
  /-- The cells, row by row. -/
  cells : List Float

/-- A scalar or a matrix. -/
inductive Content where
  /-- One sample. -/
  | scalar (x : Float)
  /-- A matrix of samples. -/
  | block (m : Block)

/-- The shape of a matrix. -/
def Block.shape (m : Block) : Shape := ⟨m.rows, m.cols⟩

namespace Content

/-- The shape of a value. -/
def shape : Content → Shape
  | .scalar _ => .single
  | .block m => m.shape

/-- Whether a value is a scalar. -/
def isScalar : Content → Bool
  | .scalar _ => true
  | .block _ => false

/-- The cells of a value. -/
def cells : Content → List Float
  | .scalar x => [x]
  | .block m => m.cells

/-- The row of given components. -/
def row (cells : List Float) : Content := .block ⟨1, cells.length, cells⟩

/-- A value has a row and a column, and as many cells as its shape says. -/
structure WellShaped (v : Content) : Prop where
  /-- There is a row. -/
  rows_pos : 0 < v.shape.rows
  /-- There is a column. -/
  cols_pos : 0 < v.shape.cols
  /-- There are as many cells as the shape says. -/
  length_cells : v.cells.length = v.shape.rows * v.shape.cols

end Content

end Loose

/-- A matrix without the proof that it counts its cells. -/
def Matrix.loose (m : Matrix) : Loose.Block := ⟨m.rows, m.cols, m.cells⟩

/-- A value without the proof that it counts its cells. -/
def Value.loose : Value → Loose.Content
  | .scalar x => .scalar x
  | .matrix m => .block m.loose

section

variable (v : Value)

@[simp] theorem Value.shape_loose : v.loose.shape = v.shape := by cases v <;> rfl

@[simp] theorem Value.isScalar_loose : v.loose.isScalar = v.isScalar := by cases v <;> rfl

@[simp] theorem Value.cells_loose : v.loose.cells = v.cells := by cases v <;> rfl

end

theorem Value.Occupied.wellShaped {v : Value} (h : v.Occupied) : v.loose.WellShaped where
  rows_pos := v.shape_loose ▸ h.rows_pos
  cols_pos := v.shape_loose ▸ h.cols_pos
  length_cells := by
    rw [Value.cells_loose, Value.shape_loose]
    exact v.length_cells

namespace Loose

/-! ### Looking up -/

/-- What comes of looking up by index: nothing if an index leaves its list, else a value or a fault
of shape. -/
abbrev Access (α : Type) := ExceptT EvalError Option α

namespace Access

variable {α β : Type}

/-- An index leaves its list. -/
def outside : Access α := ExceptT.mk none

/-- What has a value or a fault of shape, and looks nothing up. -/
def settled (x : Except EvalError α) : Access α := ExceptT.mk (some x)

/-- What has been found, if anything has. -/
def found : Option α → Access α
  | some x => pure x
  | none => outside

/-- The item of a list at an index. -/
def look (xs : List α) (i : Nat) : Access α := found xs[i]?

/-- The items of a list from an index on. -/
def lookFrom (xs : List α) (i : Nat) : Access (List α) :=
  if i ≤ xs.length then pure (xs.drop i) else outside

theorem look_of_getElem? {xs : List α} {i : Nat} {x : α} (h : xs[i]? = some x) :
    look xs i = pure x := by
  rw [look, h]
  rfl

theorem found_bind (o : Option α) (f : α → Option β) :
    found (o >>= f) = found o >>= fun a => found (f a) := by
  cases o <;> rfl

theorem found_foldlM (f : β → α → Option β) (as : List α) (b : β) :
    found (as.foldlM f b) = as.foldlM (fun b a => found (f b a)) b := by
  induction as generalizing b with
  | nil => rfl
  | cons a as ih =>
    rw [List.foldlM_cons, List.foldlM_cons, found_bind]
    exact congrArg (found (f b a) >>= ·) (funext ih)

/-- What looks up by index stands for a computation that does not: no index leaves its list, and the
outcomes are the same but for the form `f` of values. -/
def Follows (f : α → β) (x : Access β) (y : Except EvalError α) : Prop := x = settled (y.map f)

namespace Follows

variable {γ δ : Type} {f : α → β} {g : γ → δ} {x : Access β} {y : Except EvalError α}

theorem of_settled {x : Access α} {y : Except EvalError α} (h : x = settled y) :
    Follows id x y := by
  refine h.trans ?_
  cases y <;> rfl

/-- No index leaves its list. -/
theorem inside (h : Follows f x y) : x ≠ outside := by
  rw [h]
  exact nofun

/-- A value is the form of one. -/
theorem value (h : Follows f x y) {b : β} (hb : x = pure b) : ∃ a, y = .ok a ∧ f a = b := by
  have hsettled : settled (y.map f) = pure b := h.symm.trans hb
  cases y with
  | ok a => exact ⟨a, rfl, Except.ok.inj (Option.some.inj hsettled)⟩
  | error e => exact nomatch hsettled

/-- What follows a computation, looked up in its form, follows the whole. -/
theorem bind {k : β → Access δ} {l : α → Except EvalError γ} (hx : Follows f x y)
    (hk : ∀ a, y = .ok a → Follows g (k (f a)) (l a)) : Follows g (x >>= k) (y >>= l) := by
  obtain rfl : x = settled (y.map f) := hx
  cases y with
  | ok a => exact hk a rfl
  | error e => rfl

protected theorem pure (a : α) : Follows f (pure (f a)) (.ok a) := rfl

protected theorem throw (e : EvalError) : Follows f (throw e) (.error e) := rfl

/-- Computations one after another, one for each item. -/
theorem mapM {ι : Type} {k : ι → Access β} {l : ι → Except EvalError α} (as : List ι)
    (h : ∀ i ∈ as, Follows f (k i) (l i)) : Follows (List.map f) (as.mapM k) (as.mapM l) := by
  induction as with
  | nil => exact Follows.pure []
  | cons i as ih =>
    rw [List.mapM_cons, List.mapM_cons]
    refine (h i List.mem_cons_self).bind fun a _ => ?_
    refine (ih fun j hj => h j (List.mem_cons_of_mem _ hj)).bind fun rest _ => ?_
    exact Follows.pure (a :: rest)

end Follows

end Access

open Access

/-! ### Operators -/

namespace Content

/-- The sample of a scalar or of a matrix of one cell. -/
def expectScalar (operation : Operation) : Content → Access Float
  | .scalar x => pure x
  | .block m =>
    if m.rows = 1 ∧ m.cols = 1 then look m.cells 0
    else throw (.dimensionality operation .scalar (.shape m.shape))

/-- The components of a scalar or of a row. -/
def expectRow (operation : Operation) (required : Requirement) (v : Content) :
    Access (List Float) :=
  if v.shape.rows = 1 then pure v.cells
  else throw (.dimensionality operation required (.shape v.shape))

/-- Apply a function to every cell. -/
def map (f : Float → Float) : Content → Content
  | .scalar x => .scalar (f x)
  | .block m => .block ⟨m.rows, m.cols, m.cells.map f⟩

/-- Combine two values cell by cell; of two matrices the first says what the shape is. -/
def zipWith (operation : Operation) (f : Float → Float → Float) : Content → Content → Access Content
  | .scalar x, .scalar y => pure (.scalar (f x y))
  | .scalar x, .block b => pure (.block ⟨b.rows, b.cols, b.cells.map (f x)⟩)
  | .block a, .scalar y => pure (.block ⟨a.rows, a.cols, a.cells.map (f · y)⟩)
  | .block a, .block b =>
    if a.shape = b.shape then pure (.block ⟨a.rows, a.cols, List.zipWith f a.cells b.cells⟩)
    else throw (.shapeMismatch operation a.shape b.shape)

end Content

namespace Block

/-- Add `x` times a cell of row `k` to the sum of the same column in row `i`. -/
def addTerm (b : Block) (i k : Nat) (x : Float) (sums : List Float) (j : Nat) :
    Access (List Float) := do
  let y ← look b.cells (k * b.cols + j)
  let sum ← look sums (i * b.cols + j)
  return sums.set (i * b.cols + j) (sum + x * y)

/-- Add the terms of one cell of the left factor to the sums of its row. -/
def addTerms (a b : Block) (i : Nat) (sums : List Float) (k : Nat) : Access (List Float) := do
  let x ← look a.cells (i * a.cols + k)
  (List.range b.cols).foldlM (addTerm b i k x) sums

/-- The matrix product, added up in place. -/
def product (a b : Block) : Access Block := do
  if a.cols = b.rows then
    let sums ← (List.range a.rows).foldlM
      (fun sums i => (List.range a.cols).foldlM (addTerms a b i) sums)
      (List.replicate (a.rows * b.cols) 0.0)
    return ⟨a.rows, b.cols, sums⟩
  else throw (.dimensionality (.binary .multiply) (.operandRows a.cols) (.shape b.shape))

end Block

/-- Apply a binary operator. -/
def applyBinary (op : BinaryOp) (a b : Content) : Access Content :=
  match op.pairing with
  | .cells => a.zipWith (.binary op) op.onSamples b
  | .byScalar => do
    let y ← b.expectScalar (.binary op)
    return a.map (op.onSamples · y)
  | .product =>
    match a, b with
    | .block l, .block r => Content.block <$> l.product r
    | _, _ => a.zipWith (.binary op) op.onSamples b

/-! ### The operators of values -/

theorem expectScalar_loose (operation : Operation) (v : Value) :
    v.loose.expectScalar operation = settled (v.expectScalar operation) := by
  cases v with
  | scalar x => rfl
  | matrix m =>
    show (if m.rows = 1 ∧ m.cols = 1 then look m.cells 0 else _) = _
    by_cases hsingle : m.rows = 1 ∧ m.cols = 1
    · have hlength : m.cells.length = 1 := by rw [m.length_cells, hsingle.1, hsingle.2]
      obtain ⟨x, hx⟩ := List.length_eq_one_iff.1 hlength
      have hshape : m.shape = .single := by rw [Matrix.shape, hsingle.1, hsingle.2]; rfl
      have hvalue : (Value.matrix m).expectScalar operation = .ok x :=
        Value.expectScalar_eq_ok_iff.2 ⟨hshape, hx⟩
      rw [if_pos hsingle, hvalue, hx]
      rfl
    · have hshape : m.shape ≠ .single := fun h => hsingle (Shape.mk.inj h)
      rw [if_neg hsingle, Value.expectScalar, Value.asScalar?_eq]
      have hnone : ¬(Value.matrix m).shape = .single := hshape
      rw [if_neg hnone]
      rfl

theorem expectRow_loose (operation : Operation) (required : Requirement) (v : Value) :
    v.loose.expectRow operation required = settled (v.expectRow operation required) := by
  unfold Loose.Content.expectRow Value.expectRow
  rw [Value.asRow?_eq, v.shape_loose, v.cells_loose]
  by_cases hrow : v.shape.rows = 1
  · rw [if_pos hrow, if_pos hrow]
    rfl
  · rw [if_neg hrow, if_neg hrow]
    rfl

theorem map_loose (f : Float → Float) (v : Value) : v.loose.map f = (v.map f).loose := by
  cases v <;> rfl

theorem zipWith_loose (operation : Operation) (f : Float → Float → Float) (a b : Value) :
    a.loose.zipWith operation f b.loose =
      settled ((a.zipWith operation f b).map Value.loose) := by
  match a, b with
  | .scalar _, .scalar _ => rfl
  | .scalar _, .matrix _ => rfl
  | .matrix _, .scalar _ => rfl
  | .matrix l, .matrix r =>
    show (if l.shape = r.shape then pure (Content.block ⟨l.rows, l.cols, _⟩) else _) = _
    by_cases hshape : l.shape = r.shape
    · obtain ⟨hrows, hcols⟩ := Shape.mk.inj hshape
      have hlength : (List.zipWith f l.cells r.cells).length = l.rows * l.cols := by
        rw [List.length_zipWith, l.length_cells, r.length_cells, hrows, hcols, Nat.min_self]
      have hzip : Matrix.zipWith? f l r = some ⟨l.rows, l.cols, _, hlength⟩ := by
        rw [Matrix.zipWith?, if_pos hshape, Matrix.ofCells?, dif_pos hlength]
      rw [if_pos hshape, Value.zipWith, Value.zipWith?, hzip]
      rfl
    · have hzip : Matrix.zipWith? f l r = none := by
        rw [Matrix.zipWith?, if_neg hshape]
      rw [if_neg hshape, Value.zipWith, Value.zipWith?, hzip]
      rfl

/-- Adding up in place looks up no cell that is not there. -/
theorem product_loose (a b : Matrix) :
    a.loose.product b.loose = settled ((a.product b).map Matrix.loose) := by
  have hterm : ∀ i k x sums j, Loose.Block.addTerm b.loose i k x sums j =
      found (Matrix.addTerm? b i k x sums j) := by
    intro i k x sums j
    unfold Matrix.addTerm?
    rw [found_bind]
    refine congrArg (found _ >>= ·) (funext fun y => ?_)
    rw [found_bind]
    rfl
  have hterms : ∀ i sums k, Loose.Block.addTerms a.loose b.loose i sums k =
      found (Matrix.addTerms? a b i sums k) := by
    intro i sums k
    unfold Matrix.addTerms?
    rw [found_bind]
    refine congrArg (found _ >>= ·) (funext fun x => ?_)
    rw [found_foldlM]
    exact congrArg (fun f => List.foldlM f sums _) (funext fun s => funext (hterm i k x s))
  have hsums : (List.range a.rows).foldlM
      (fun sums i => (List.range a.cols).foldlM (Loose.Block.addTerms a.loose b.loose i) sums)
      (List.replicate (a.rows * b.cols) 0.0) = found (Matrix.sumInPlace? a b) := by
    unfold Matrix.sumInPlace?
    rw [found_foldlM]
    refine congrArg (fun f => List.foldlM f _ _) (funext fun s => funext fun i => ?_)
    rw [found_foldlM]
    exact congrArg (fun f => List.foldlM f s _) (funext fun s => funext (hterms i s))
  by_cases hinner : a.cols = b.rows
  · obtain ⟨m, hm⟩ := Value.product_eq_ok hinner
    obtain ⟨hrows, hcols⟩ := Shape.mk.inj (Value.shape_of_product hm).2
    have hproduct : a.loose.product b.loose =
        found (Matrix.sumInPlace? a b) >>= fun sums => pure ⟨a.rows, b.cols, sums⟩ := by
      rw [← hsums]
      exact if_pos hinner
    rw [hproduct, Matrix.sumInPlace?_of_product hm, hm, Except.map, Matrix.loose, hrows, hcols]
    rfl
  · rw [Matrix.product_eq_error_iff.2 hinner]
    exact if_neg hinner

/-- **Operators** look up nothing that is not there. -/
theorem applyBinary_loose (op : BinaryOp) (a b : Value) :
    applyBinary op a.loose b.loose = settled ((op.apply a b).map Value.loose) := by
  unfold applyBinary BinaryOp.apply
  cases op.pairing with
  | cells => exact zipWith_loose _ _ a b
  | byScalar =>
    simp only
    rw [expectScalar_loose]
    cases b.expectScalar (.binary op) with
    | ok y => exact congrArg (pure (f := Access)) (map_loose _ a)
    | error e => rfl
  | product =>
    match a, b with
    | .scalar _, .scalar _ => exact zipWith_loose _ _ _ _
    | .scalar _, .matrix _ => exact zipWith_loose _ _ _ _
    | .matrix _, .scalar _ => exact zipWith_loose _ _ _ _
    | .matrix l, .matrix r =>
      show Content.block <$> l.loose.product r.loose = _
      rw [product_loose]
      cases h : l.product r with
      | ok m => simp only [h]; rfl
      | error e => simp only [h]; rfl

end Loose

end MapAlgebra
