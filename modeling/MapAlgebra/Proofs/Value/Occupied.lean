import MapAlgebra.Proofs.Value.Alike

/-!
# Values with cells

No operator and no function makes a matrix without cells of values that have some. Main statements:
**`BinaryOp.occupied_of_apply`** and **`Function.occupied_of_apply`**. Most results have the shape
of an operand. A row is put together from one component for each argument, index or window, and
there is at least one of these: `cat` and `bands` take rows that have a component, and the functions
of any number of arguments ask for one at least.
-/

namespace MapAlgebra

open Value

/-- A value has a row and a column. -/
structure Value.Occupied (v : Value) : Prop where
  /-- There is a row. -/
  rows_pos : 0 < v.shape.rows
  /-- There is a column. -/
  cols_pos : 0 < v.shape.cols

variable {a b v : Value}

namespace Value

theorem occupied_scalar (x : Float) : (scalar x).Occupied := ⟨Nat.one_pos, Nat.one_pos⟩

theorem Occupied.of_shape_eq (h : a.Occupied) (hshape : v.shape = a.shape) : v.Occupied :=
  ⟨hshape ▸ h.rows_pos, hshape ▸ h.cols_pos⟩

theorem Occupied.map (h : a.Occupied) (f : Float → Float) : (a.map f).Occupied :=
  h.of_shape_eq (map_alike f a).1

theorem Occupied.cells_ne_nil (h : v.Occupied) : v.cells ≠ [] := by
  have hsize : 0 < v.shape.size := Nat.mul_pos h.rows_pos h.cols_pos
  rw [← v.length_cells] at hsize
  exact List.ne_nil_of_length_pos hsize

theorem occupied_row {xs : List Float} (h : xs ≠ []) : (row xs).Occupied :=
  ⟨Nat.one_pos, List.length_pos_of_ne_nil h⟩

/-- Cells combined one by one make up the shape of an operand. -/
theorem Occupied.zipWith (ha : a.Occupied) (hb : b.Occupied) {op : Operation}
    {f : Float → Float → Float} (h : Value.zipWith op f a b = .ok v) : v.Occupied := by
  unfold Value.zipWith at h
  split at h
  · next w hw =>
    cases h
    cases a with
    | scalar x =>
      cases b with
      | scalar y =>
        cases hw
        exact occupied_scalar _
      | matrix m =>
        cases hw
        exact hb.map (f x)
    | matrix l =>
      cases b with
      | scalar y =>
        cases hw
        exact ha.map (f · y)
      | matrix r =>
        obtain ⟨m, hm, rfl⟩ := Option.map_eq_some_iff.1 hw
        exact ha.of_shape_eq (shape_of_zipWith? hm).2
  · cases h

/-- A product has the rows of one factor and the columns of the other. -/
theorem Occupied.product {l r m : Matrix} (hl : (matrix l).Occupied) (hr : (matrix r).Occupied)
    (h : l.product r = .ok m) : (matrix m).Occupied := by
  obtain ⟨hrows, hcols⟩ := Shape.mk.inj (shape_of_product h).2
  exact ⟨Nat.lt_of_lt_of_eq hl.rows_pos hrows.symm, Nat.lt_of_lt_of_eq hr.cols_pos hcols.symm⟩

/-- Components are taken from a value that has some. -/
theorem Occupied.expectRow (h : a.Occupied) {op : Operation} {required : Requirement}
    {xs : List Float} (hrow : a.expectRow op required = .ok xs) : xs ≠ [] := by
  obtain ⟨-, rfl⟩ := expectRow_eq_ok_iff.1 hrow
  exact h.cells_ne_nil

end Value

/-- **Operators** make values with cells of values with cells. -/
theorem BinaryOp.occupied_of_apply {op : BinaryOp} (ha : a.Occupied) (hb : b.Occupied)
    (h : op.apply a b = .ok v) : v.Occupied := by
  unfold BinaryOp.apply at h
  split at h
  · exact ha.zipWith hb h
  · split at h
    · cases h
      exact ha.map _
    · cases h
  · split at h
    · obtain ⟨m, hm, rfl⟩ := map_eq_ok_iff.1 h
      exact ha.product hb hm
    · exact ha.zipWith hb h

/-! ### Functions -/

/-- A step that succeeds on all of some items gives one value for each. -/
theorem length_of_mapM {α β ε : Type} {f : α → Except ε β} {as : List α} {bs : List β}
    (h : as.mapM f = .ok bs) : bs.length = as.length := by
  have hlength := Meets.mapM (E := fun _ => True) (f := f) (fun a => by cases f a <;> trivial) as
  rwa [h] at hlength

theorem ne_nil_of_mapM {α β ε : Type} {f : α → Except ε β} {as : List α} {bs : List β}
    (h : as.mapM f = .ok bs) (has : as ≠ []) : bs ≠ [] :=
  List.ne_nil_of_length_pos (length_of_mapM h ▸ List.length_pos_of_ne_nil has)

theorem occupied_of_selectBands (hb : b.Occupied) (h : selectBands a b = .ok v) : v.Occupied := by
  obtain ⟨components, -, h⟩ := bind_eq_ok_iff.1 h
  obtain ⟨picks, hpicks, h⟩ := bind_eq_ok_iff.1 h
  obtain ⟨picked, hpicked, h⟩ := bind_eq_ok_iff.1 h
  cases h
  exact occupied_row (ne_nil_of_mapM hpicked (hb.expectRow hpicks))

theorem occupied_of_concatenate {rest : List Value} (ha : a.Occupied)
    (h : concatenate (a :: rest) = .ok v) : v.Occupied := by
  obtain ⟨rows, hrows, h⟩ := bind_eq_ok_iff.1 h
  cases h
  rw [List.mapM_cons] at hrows
  obtain ⟨first, hfirst, hrows⟩ := bind_eq_ok_iff.1 hrows
  obtain ⟨others, -, hrows⟩ := bind_eq_ok_iff.1 hrows
  cases hrows
  refine occupied_row ?_
  rw [List.flatten_cons]
  exact List.append_ne_nil_of_left_ne_nil (ha.expectRow hfirst) _

theorem occupied_of_correlate (h : correlate a b = .ok v) : v.Occupied := by
  unfold correlate at h
  split at h
  · split at h <;> cases h <;> exact occupied_scalar _
  · cases h

theorem occupied_of_convolve {kernel : Value} {windows : List Value} (hw : windows ≠ [])
    (h : convolve kernel windows = .ok v) : v.Occupied := by
  obtain ⟨xs, hxs, h⟩ := bind_eq_ok_iff.1 h
  cases h
  exact occupied_row (ne_nil_of_mapM hxs hw)

theorem Reduction.occupied_apply (r : Reduction) {args : List Value} (h : args ≠ []) :
    (r.apply args).Occupied := by
  unfold Reduction.apply
  split
  · exact occupied_scalar _
  · exact occupied_row (mt List.map_eq_nil_iff.1 h)

/-- A call with a wrong number of arguments is a fault. -/
theorem Function.apply_of_not_accepts {f : Function} {args : List Value}
    (h : ¬f.arity.accepts args.length = true) : f.apply args =
      .error (.dimensionality (.function f) (.arguments f.arity) (.arguments args.length)) := by
  rcases args with _ | ⟨a, _ | ⟨b, _ | ⟨c, rest⟩⟩⟩ <;> cases f <;>
    first | rfl | exact absurd rfl h

/-- **Functions** make values with cells of values with cells. -/
theorem Function.occupied_of_apply {f : Function} {args : List Value}
    (hargs : ∀ a ∈ args, a.Occupied) (h : f.apply args = .ok v) : v.Occupied := by
  have harity := accepts_of_apply h
  cases f <;> simp only [arity, Arity.accepts, beq_iff_eq, decide_eq_true_eq] at harity
  case scalar | vect2scal =>
    obtain ⟨a, rfl⟩ := List.length_eq_one_iff.1 harity
    obtain ⟨x, -, h⟩ := bind_eq_ok_iff.1 h
    cases h
    exact occupied_scalar _
  case cellwise g =>
    obtain ⟨a, rfl⟩ := List.length_eq_one_iff.1 harity
    cases h
    exact (hargs a List.mem_cons_self).map _
  case reduce r =>
    cases args with
    | nil => cases h
    | cons a rest =>
      cases h
      exact r.occupied_apply (List.cons_ne_nil _ _)
  case atan2 | ndvi =>
    obtain ⟨a, b, rfl⟩ := List.length_eq_two.1 harity
    obtain ⟨x, -, h⟩ := bind_eq_ok_iff.1 h
    obtain ⟨y, -, h⟩ := bind_eq_ok_iff.1 h
    cases h
    exact occupied_scalar _
  case bands =>
    obtain ⟨a, b, rfl⟩ := List.length_eq_two.1 harity
    exact occupied_of_selectBands (hargs b (by simp)) h
  case cat =>
    cases args with
    | nil => cases h
    | cons a rest => exact occupied_of_concatenate (hargs a List.mem_cons_self) h
  case vmin | vmax | vnorm =>
    obtain ⟨a, rfl⟩ := List.length_eq_one_iff.1 harity
    cases h
    exact occupied_scalar _
  case corr =>
    obtain ⟨a, b, rfl⟩ := List.length_eq_two.1 harity
    exact occupied_of_correlate h
  case conv =>
    cases args with
    | nil => cases h
    | cons kernel images =>
      cases images with
      | nil => cases h
      | cons image rest => exact occupied_of_convolve (List.cons_ne_nil image rest) h

end MapAlgebra
