import MapAlgebra.Function.Apply
import MapAlgebra.Proofs.Result

/-!
# Shapes of results

Whether an operator or a function has a value, and of what shape, is decided by the shapes of its
operands and by which of them are scalars, never by their samples; `bands` alone looks at samples,
to pick a component. This module calls two values *alike* that have one shape and are both scalars
or both matrices.

Main statements: **`BinaryOp.apply_alike`** and **`Function.apply_alike`** say that what succeeds on
some operands succeeds on operands alike, with a value alike, but that `bands` may fail on an index.
-/

namespace MapAlgebra

namespace Value

/-- Two values of one shape that are both scalars or both matrices. -/
def Alike (a b : Value) : Prop := a.shape = b.shape ∧ a.isScalar = b.isScalar

namespace Alike

variable {a b c : Value}

theorem refl (a : Value) : Alike a a := ⟨rfl, rfl⟩

theorem symm (h : Alike a b) : Alike b a := ⟨h.1.symm, h.2.symm⟩

theorem trans (h : Alike a b) (h' : Alike b c) : Alike a c := ⟨h.1.trans h'.1, h.2.trans h'.2⟩

/-- Values alike have equally many cells. -/
theorem length_cells (h : Alike a b) : a.cells.length = b.cells.length := by
  rw [Value.length_cells, Value.length_cells, h.1]

end Alike

theorem alike_scalar (x y : Float) : Alike (.scalar x) (.scalar y) := ⟨rfl, rfl⟩

theorem alike_row {xs ys : List Float} (h : xs.length = ys.length) : Alike (row xs) (row ys) :=
  ⟨by simp [row, Matrix.row, shape, Matrix.shape, h], rfl⟩

/-- Applying a function to every cell keeps the shape. -/
theorem map_alike (f : Float → Float) (v : Value) : Alike (v.map f) v := by
  cases v <;> exact ⟨rfl, rfl⟩

theorem Alike.map {a b : Value} (h : Alike a b) (f g : Float → Float) : Alike (a.map f) (b.map g) :=
  (map_alike f a).trans (h.trans (map_alike g b).symm)

/-! ### Operands of a required shape -/

/-- The only cell of a value is there exactly when its shape says so. -/
theorem asScalar?_eq (v : Value) :
    v.asScalar? = if v.shape = .single then v.cells.head? else none := by
  cases v <;> rfl

/-- The components of a value are there exactly when it has one row. -/
theorem asRow?_eq (v : Value) : v.asRow? = if v.shape.rows = 1 then some v.cells else none := by
  cases v <;> rfl

/-- A value is taken for a scalar exactly when it has one cell. -/
theorem expectScalar_eq_ok_iff {op : Operation} {v : Value} {x : Float} :
    v.expectScalar op = .ok x ↔ v.shape = .single ∧ v.cells = [x] := by
  have hlen := v.length_cells
  unfold expectScalar
  rw [asScalar?_eq]
  by_cases hs : v.shape = .single
  · rw [hs] at hlen
    obtain ⟨y, hy⟩ := List.length_eq_one_iff.1 hlen
    simp [hs, hy]
  · simp [hs]

/-- A value is taken for a row exactly when it has one row. -/
theorem expectRow_eq_ok_iff {op : Operation} {required : Requirement} {v : Value}
    {xs : List Float} : v.expectRow op required = .ok xs ↔ v.shape.rows = 1 ∧ v.cells = xs := by
  unfold expectRow
  rw [asRow?_eq]
  by_cases hs : v.shape.rows = 1 <;> simp [hs]

theorem Alike.expectScalar {a b : Value} (h : Alike a b) {op : Operation} {x : Float}
    (ha : a.expectScalar op = .ok x) : ∃ y, b.expectScalar op = .ok y := by
  have hs : b.shape = .single := h.1 ▸ (expectScalar_eq_ok_iff.1 ha).1
  have hlen := b.length_cells
  rw [hs] at hlen
  obtain ⟨y, hy⟩ := List.length_eq_one_iff.1 hlen
  exact ⟨y, expectScalar_eq_ok_iff.2 ⟨hs, hy⟩⟩

theorem Alike.expectRow {a b : Value} (h : Alike a b) {op : Operation} {required : Requirement}
    {xs : List Float} (ha : a.expectRow op required = .ok xs) :
    ∃ ys, b.expectRow op required = .ok ys ∧ xs.length = ys.length := by
  obtain ⟨hs, rfl⟩ := expectRow_eq_ok_iff.1 ha
  exact ⟨b.cells, expectRow_eq_ok_iff.2 ⟨h.1 ▸ hs, rfl⟩, h.length_cells⟩

/-! ### Cell by cell -/

/-- Two matrices are combined cell by cell exactly when they have one shape, which the result has
too. -/
theorem shape_of_zipWith? {f : Float → Float → Float} {a b m : Matrix}
    (h : Matrix.zipWith? f a b = some m) : a.shape = b.shape ∧ m.shape = a.shape := by
  unfold Matrix.zipWith? Matrix.ofCells? at h
  split at h
  · next hs =>
    split at h
    · cases h; exact ⟨hs, rfl⟩
    · cases h
  · cases h

theorem isSome_zipWith? {a b : Matrix} (f : Float → Float → Float) (h : a.shape = b.shape) :
    ∃ m, Matrix.zipWith? f a b = some m := by
  have hcells : (List.zipWith f a.cells b.cells).length = a.rows * a.cols := by
    simp only [Matrix.shape, Shape.mk.injEq] at h
    rw [List.length_zipWith, a.length_cells, b.length_cells, h.1, h.2, Nat.min_self]
  exact ⟨_, by rw [Matrix.zipWith?, if_pos h, Matrix.ofCells?, dif_pos hcells]⟩

/-- Two values are combined cell by cell as soon as two values alike are, with a result alike. -/
theorem Alike.zipWith {a a' b b' v : Value} {op : Operation} {f : Float → Float → Float}
    (ha : Alike a a') (hb : Alike b b') (h : Value.zipWith op f a b = .ok v) :
    ∃ v', Value.zipWith op f a' b' = .ok v' ∧ Alike v v' := by
  obtain ⟨hsa, hka⟩ := ha
  obtain ⟨hsb, hkb⟩ := hb
  unfold Value.zipWith at h ⊢
  split at h
  · next w hw =>
    cases h
    cases a <;> cases a' <;> cases hka <;> cases b <;> cases b' <;> cases hkb
    · cases hw; exact ⟨_, rfl, alike_scalar _ _⟩
    · cases hw; exact ⟨_, rfl, hsb, rfl⟩
    · cases hw; exact ⟨_, rfl, hsa, rfl⟩
    · next m m' n n' =>
      obtain ⟨r, hr, rfl⟩ := Option.map_eq_some_iff.1 hw
      obtain ⟨hmn, hrm⟩ := shape_of_zipWith? hr
      obtain ⟨r', hr'⟩ := isSome_zipWith? f (hsa.symm.trans (hmn.trans hsb) : m'.shape = n'.shape)
      exact ⟨.matrix r', by simp only [zipWith?, hr', Option.map_some],
        hrm.trans (hsa.trans (shape_of_zipWith? hr').2.symm), rfl⟩
  · cases h

/-! ### The matrix product -/

theorem shape_of_product {a b m : Matrix} (h : a.product b = .ok m) :
    a.cols = b.rows ∧ m.shape = ⟨a.rows, b.cols⟩ := by
  unfold Matrix.product at h
  split at h
  · next m' hm =>
    cases h
    refine ⟨Matrix.product?_isSome_iff.1 (by rw [hm]; rfl), ?_⟩
    unfold Matrix.product? Matrix.ofCells? at hm
    split at hm
    · split at hm
      · cases hm; rfl
      · cases hm
    · cases hm
  · cases h

theorem product_eq_ok {a b : Matrix} (h : a.cols = b.rows) : ∃ m, a.product b = .ok m := by
  obtain ⟨m, hm⟩ := Option.isSome_iff_exists.1 (Matrix.product?_isSome_iff.2 h)
  exact ⟨m, by simp only [Matrix.product, hm]⟩

/-- Two matrices have a product as soon as two of the same shapes have, of the same shape. -/
theorem product_alike {a a' b b' m : Matrix} (ha : a.shape = a'.shape) (hb : b.shape = b'.shape)
    (h : a.product b = .ok m) : ∃ m', a'.product b' = .ok m' ∧ m.shape = m'.shape := by
  obtain ⟨hinner, hm⟩ := shape_of_product h
  simp only [Matrix.shape, Shape.mk.injEq] at ha hb
  obtain ⟨m', hm'⟩ := product_eq_ok (a := a') (b := b') (by rw [← ha.2, ← hb.1, hinner])
  refine ⟨m', hm', ?_⟩
  rw [hm, (shape_of_product hm').2, ha.1, hb.2]

end Value

open Value

/-- **Operators**: what an operator makes of two values, it makes of values alike, and the results
are alike. -/
theorem BinaryOp.apply_alike {op : BinaryOp} {a a' b b' v : Value} (ha : Alike a a')
    (hb : Alike b b') (h : op.apply a b = .ok v) : ∃ v', op.apply a' b' = .ok v' ∧ Alike v v' := by
  unfold BinaryOp.apply at h ⊢
  split at h
  · exact ha.zipWith hb h
  · split at h
    · next y hy =>
      cases h
      obtain ⟨z, hz⟩ := hb.expectScalar hy
      exact ⟨a'.map (op.onSamples · z), by simp only [hz], ha.map _ _⟩
    · cases h
  · -- only two matrices have a matrix product; a scalar scales
    cases a <;> cases a' <;> cases ha.2 <;> cases b <;> cases b' <;> cases hb.2
    case matrix.matrix.refl.matrix.matrix.refl l l' r r' =>
      obtain ⟨m, hm, rfl⟩ : ∃ m, l.product r = .ok m ∧ Value.matrix m = v := by
        simp only at h
        cases hp : l.product r with
        | ok m => rw [hp] at h; cases h; exact ⟨m, rfl, rfl⟩
        | error e => rw [hp] at h; cases h
      obtain ⟨m', hm', hs⟩ := product_alike ha.1 hb.1 hm
      exact ⟨.matrix m', by simp only [hm', Except.map], hs, rfl⟩
    all_goals exact ha.zipWith hb h

/-! ### Functions -/

/-- The fault of an index that picks no component. -/
def EvalError.IsIndexFault (e : EvalError) : Prop :=
  ∃ index length, e = .indexOutOfRange (.function .bands) index length

theorem meets_pick (components : List Float) (index : Float) :
    Meets (fun _ => True) EvalError.IsIndexFault (pick components index) := by
  unfold pick
  split
  · exact ⟨_, _, rfl⟩
  · split
    · trivial
    · exact ⟨_, _, rfl⟩

/-- Picking bands gives one component for each index, or fails on an index. -/
theorem selectBands_alike {a a' b b' v : Value} (ha : Alike a a') (hb : Alike b b')
    (h : selectBands a b = .ok v) : Meets (Alike v) EvalError.IsIndexFault (selectBands a' b') := by
  unfold selectBands at h ⊢
  obtain ⟨xs, hxs, h⟩ := bind_eq_ok_iff.1 h
  obtain ⟨picks, hpicks, h⟩ := bind_eq_ok_iff.1 h
  obtain ⟨picked, hpicked, h⟩ := bind_eq_ok_iff.1 h
  cases h
  obtain ⟨xs', hxs', -⟩ := ha.expectRow hxs
  obtain ⟨picks', hpicks', hlen⟩ := hb.expectRow hpicks
  have hcount : picked.length = picks.length := by
    have := Meets.mapM (meets_pick xs) picks
    rwa [hpicked] at this
  rw [hxs', hpicks']
  refine (Meets.mapM (meets_pick xs') picks').bind fun picked' hcount' => ?_
  exact alike_row (hcount.trans (hlen.trans hcount'.symm))

theorem concatenate_alike {args args' : List Value} {v : Value} (h : List.Forall₂ Alike args args')
    (hv : concatenate args = .ok v) : ∃ v', concatenate args' = .ok v' ∧ Alike v v' := by
  unfold concatenate at hv ⊢
  obtain ⟨rows, hrows, hv⟩ := bind_eq_ok_iff.1 hv
  cases hv
  obtain ⟨rows', hrows', hrel⟩ := mapM_related (R := fun xs ys => xs.length = ys.length) h
    (fun ha => ha.expectRow) hrows
  refine ⟨.row rows'.flatten, by rw [hrows']; rfl, alike_row ?_⟩
  have : rows.map List.length = rows'.map List.length := by
    rw [← List.forall₂_eq_eq_eq]
    exact List.forall₂_map_left_iff.2 (List.forall₂_map_right_iff.2 hrel)
  rw [List.length_flatten, List.length_flatten, this]

theorem correlate_alike {a a' b b' v : Value} (ha : Alike a a') (hb : Alike b b')
    (h : correlate a b = .ok v) : ∃ v', correlate a' b' = .ok v' ∧ Alike v v' := by
  unfold correlate at h ⊢
  by_cases hs : a.shape = b.shape
  · rw [if_pos hs] at h
    rw [if_pos (by rw [← ha.1, ← hb.1, hs])]
    obtain ⟨x, rfl⟩ : ∃ x, v = .scalar x := by
      split at h <;> cases h <;> exact ⟨_, rfl⟩
    split
    · exact ⟨_, rfl, alike_scalar _ _⟩
    · exact ⟨_, rfl, alike_scalar _ _⟩
  · rw [if_neg hs] at h
    cases h

theorem convolve_alike {kernel kernel' v : Value} {windows windows' : List Value}
    (hk : Alike kernel kernel') (hw : List.Forall₂ Alike windows windows')
    (h : convolve kernel windows = .ok v) :
    ∃ v', convolve kernel' windows' = .ok v' ∧ Alike v v' := by
  unfold convolve at h ⊢
  obtain ⟨xs, hxs, h⟩ := bind_eq_ok_iff.1 h
  cases h
  have weigh : ∀ {w w' : Value} {x : Float}, Alike w w' → weightedSum kernel w = .ok x →
      ∃ y, weightedSum kernel' w' = .ok y ∧ True := by
    intro w w' x hw hx
    unfold weightedSum at hx ⊢
    split at hx
    · next hlen =>
      exact ⟨_, by rw [if_pos (by rw [← hw.length_cells, ← hk.length_cells, hlen])], trivial⟩
    · cases hx
  obtain ⟨xs', hxs', hrel⟩ := mapM_related hw weigh hxs
  exact ⟨.row xs', by rw [hxs']; rfl, alike_row hrel.length_eq⟩

/-- A reduction never fails, and whether it combines scalars depends on which arguments are. -/
theorem Reduction.apply_alike (r : Reduction) {args args' : List Value}
    (h : List.Forall₂ Alike args args') : Alike (r.apply args) (r.apply args') := by
  have hall : args.all (·.isScalar) = args'.all (·.isScalar) := by
    induction h with
    | nil => rfl
    | cons ha _ ih => rw [List.all_cons, List.all_cons, ha.2, ih]
  unfold Reduction.apply
  rw [hall]
  split
  · exact alike_scalar _ _
  · exact alike_row (by rw [List.length_map, List.length_map, h.length_eq])

/-- A call that has a value has as many arguments as its function takes. -/
theorem Function.accepts_of_apply {f : Function} {args : List Value} {v : Value}
    (h : f.apply args = .ok v) : f.arity.accepts args.length = true := by
  rcases args with _ | ⟨a, _ | ⟨b, _ | ⟨c, rest⟩⟩⟩ <;> cases f <;>
    simp [Function.apply, Function.arity, Arity.accepts] at h ⊢

section

variable {R : Value → Value → Prop} {as as' : List Value}

theorem forall₂_one (h : List.Forall₂ R as as') (hlen : as.length = 1) :
    ∃ a a', as = [a] ∧ as' = [a'] ∧ R a a' := by
  obtain ⟨a, rfl⟩ := List.length_eq_one_iff.1 hlen
  cases h with
  | cons ha hnil => cases hnil; exact ⟨a, _, rfl, rfl, ha⟩

theorem forall₂_two (h : List.Forall₂ R as as') (hlen : as.length = 2) :
    ∃ a b a' b', as = [a, b] ∧ as' = [a', b'] ∧ R a a' ∧ R b b' := by
  obtain ⟨a, b, rfl⟩ := List.length_eq_two.1 hlen
  cases h with
  | cons ha h =>
    cases h with
    | cons hb hnil => cases hnil; exact ⟨a, b, _, _, rfl, rfl, ha, hb⟩

end

/-- **Functions**: what a function makes of some arguments, it makes of arguments alike, and the
results are alike, but that `bands` may fail on an index. -/
theorem Function.apply_alike {f : Function} {args args' : List Value} {v : Value}
    (h : List.Forall₂ Alike args args') (hv : f.apply args = .ok v) :
    Meets (Alike v) (fun e => f = .bands ∧ e.IsIndexFault) (f.apply args') := by
  have harity := accepts_of_apply hv
  cases f <;> simp only [arity, Arity.accepts, beq_iff_eq, decide_eq_true_eq] at harity
  case scalar | vect2scal =>
    obtain ⟨a, a', rfl, rfl, ha⟩ := forall₂_one h harity
    obtain ⟨x, hx, hv⟩ := bind_eq_ok_iff.1 hv
    cases hv
    obtain ⟨y, hy⟩ := ha.expectScalar hx
    exact Meets.of_ok (by simp only [apply, hy]; rfl) (alike_scalar _ _)
  case cellwise g =>
    obtain ⟨a, a', rfl, rfl, ha⟩ := forall₂_one h harity
    cases hv
    exact ha.map _ _
  case reduce r =>
    cases h with
    | nil => cases hv
    | cons ha hrest =>
      cases hv
      exact r.apply_alike (.cons ha hrest)
  case atan2 | ndvi =>
    obtain ⟨a, b, a', b', rfl, rfl, ha, hb⟩ := forall₂_two h harity
    obtain ⟨x, hx, hv⟩ := bind_eq_ok_iff.1 hv
    obtain ⟨y, hy, hv⟩ := bind_eq_ok_iff.1 hv
    cases hv
    obtain ⟨x', hx'⟩ := ha.expectScalar hx
    obtain ⟨y', hy'⟩ := hb.expectScalar hy
    exact Meets.of_ok (by simp only [apply, hx', hy']; rfl) (alike_scalar _ _)
  case bands =>
    obtain ⟨a, b, a', b', rfl, rfl, ha, hb⟩ := forall₂_two h harity
    exact (selectBands_alike ha hb hv).mono (fun _ h => h) fun _ he => ⟨rfl, he⟩
  case cat =>
    cases h with
    | nil => cases hv
    | cons ha hrest =>
      obtain ⟨v', hv', hal⟩ := concatenate_alike (.cons ha hrest) hv
      exact Meets.of_ok hv' hal
  case vmin | vmax | vnorm =>
    obtain ⟨a, a', rfl, rfl, -⟩ := forall₂_one h harity
    cases hv
    exact alike_scalar _ _
  case corr =>
    obtain ⟨a, b, a', b', rfl, rfl, ha, hb⟩ := forall₂_two h harity
    obtain ⟨v', hv', hal⟩ := correlate_alike ha hb hv
    exact Meets.of_ok hv' hal
  case conv =>
    rcases h with _ | ⟨hk, _ | ⟨hw, hrest⟩⟩
    · cases hv
    · cases hv
    · obtain ⟨v', hv', hal⟩ := convolve_alike hk (.cons hw hrest) hv
      exact Meets.of_ok hv' hal

end MapAlgebra
