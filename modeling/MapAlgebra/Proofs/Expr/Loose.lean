import MapAlgebra.Proofs.Expr.Occupied
import MapAlgebra.Proofs.Expr.Probe
import MapAlgebra.Proofs.Function.Loose

/-!
# Evaluation on values that count nothing

A formula is evaluated on values that do not prove that they count their cells, and every cell it
needs is looked up by index. Main statement: **`Tree.evalLoose_follows`**. On slots whose values do
count their cells no index leaves its list, and the value is the one the formula has.
-/

namespace MapAlgebra.Expr.Tree

open Loose Loose.Access

mutual

/-- The value of a formula on values that count nothing. -/
def evalLoose (branching : Branching) (slots : Array Content) : Tree Nat → Access Content
  | .number x => return .scalar x
  | .variable slot =>
    match slots[slot]? with
    | some v => return v
    | none => throw (.unboundSlot slot)
  | .unary op operand => return (← operand.evalLoose branching slots).map op.onSample
  | .binary op left right => do
    let a ← left.evalLoose branching slots
    let b ← right.evalLoose branching slots
    applyBinary op a b
  | .choice condition yes no => do
    let c ← (← condition.evalLoose branching slots).expectScalar .choice
    match branching with
    | .selected => if truthy c then yes.evalLoose .selected slots else no.evalLoose .selected slots
    | .both =>
      let a ← yes.evalLoose .both slots
      let b ← no.evalLoose .both slots
      if a.shape = b.shape ∧ a.isScalar = b.isScalar then return a
      else throw (.shapeMismatch .choice a.shape b.shape)
  | .call f args => do apply f (← evalAllLoose branching slots args)
  | .matrix rows cols elements => do
    let cells ← evalElementsLoose branching slots elements
    if cells.length = rows * cols then return .block ⟨rows, cols, cells⟩
    else throw (.dimensionality .matrix (.elements (rows * cols)) (.elements cells.length))

/-- The values of a list of formulas, from left to right. -/
def evalAllLoose (branching : Branching) (slots : Array Content) :
    List (Tree Nat) → Access (List Content)
  | [] => return []
  | t :: ts => return (← t.evalLoose branching slots) :: (← evalAllLoose branching slots ts)

/-- The samples of the elements of a matrix, each of which must be a scalar. -/
def evalElementsLoose (branching : Branching) (slots : Array Content) :
    List (Tree Nat) → Access (List Float)
  | [] => return []
  | t :: ts => do
    let x ← (← t.evalLoose branching slots).expectScalar .literal
    return x :: (← evalElementsLoose branching slots ts)

end

/-- Of the given formulas, none is a call of `bands` on a row of `2 ^ 53` components or more. -/
def ShortRows (branching : Branching) (slots : Array Value) (ts : List (Tree Nat)) : Prop :=
  ∀ vector indices v, .call .bands [vector, indices] ∈ ts → vector.eval branching slots = .ok v →
    v.cells.length < 2 ^ 53

section

variable {branching : Branching} {slots : Array Value} {ts us : List (Tree Nat)}

instance : Decidable (ShortRows branching slots ts) :=
  decidable_of_iff
    (ts.all fun
      | .call .bands [vector, _] =>
        (vector.eval branching slots).toOption.all fun v => v.cells.length < 2 ^ 53
      | _ => true) <| by
    rw [List.all_eq_true]
    constructor
    · intro h vector indices v hmem hv
      have hall : (vector.eval branching slots).toOption.all _ = true := h _ hmem
      rw [hv] at hall
      exact of_decide_eq_true hall
    · intro h t hmem
      split
      · next vector indices =>
        cases hv : vector.eval branching slots with
        | ok v => exact decide_eq_true (h vector indices v hmem hv)
        | error e => rfl
      · rfl

theorem ShortRows.mono (h : ShortRows branching slots ts) (hsub : us ⊆ ts) :
    ShortRows branching slots us :=
  fun vector indices v hmem => h vector indices v (hsub hmem)

theorem ShortRows.left (h : ShortRows branching slots (ts ++ us)) : ShortRows branching slots ts :=
  h.mono (List.subset_append_left _ _)

theorem ShortRows.right (h : ShortRows branching slots (ts ++ us)) : ShortRows branching slots us :=
  h.mono (List.subset_append_right _ _)

theorem ShortRows.tail {t : Tree Nat} (h : ShortRows branching slots (t :: ts)) :
    ShortRows branching slots ts :=
  h.mono (List.subset_cons_self _ _)

/-- The row of a call of `bands` that has been evaluated. -/
theorem ShortRows.length_lt {args : List (Tree Nat)} {a b : Value}
    (h : ShortRows branching slots (.call .bands args :: ts))
    (hargs : evalAll branching slots args = .ok [a, b]) : a.cells.length < 2 ^ 53 := by
  match args with
  | [] => cases hargs
  | vector :: rest =>
    obtain ⟨v, hv, hargs⟩ := bind_eq_ok_iff.1 hargs
    obtain ⟨vs, hvs, hargs⟩ := bind_eq_ok_iff.1 hargs
    cases hargs
    match rest with
    | [] => cases hvs
    | indices :: rest =>
      obtain ⟨w, -, hvs⟩ := bind_eq_ok_iff.1 hvs
      obtain ⟨ws, hws, hvs⟩ := bind_eq_ok_iff.1 hvs
      cases hvs
      match rest with
      | [] => exact h vector indices a List.mem_cons_self hv
      | _ :: _ =>
        obtain ⟨_, -, hws⟩ := bind_eq_ok_iff.1 hws
        obtain ⟨_, -, hws⟩ := bind_eq_ok_iff.1 hws
        cases hws

theorem commonBranch_follows (a b : Value) :
    Follows Value.loose
      (if a.loose.shape = b.loose.shape ∧ a.loose.isScalar = b.loose.isScalar then pure a.loose
        else throw (.shapeMismatch .choice a.loose.shape b.loose.shape))
      (commonBranch a b) := by
  unfold commonBranch
  simp only [Value.shape_loose, Value.isScalar_loose]
  split
  · exact Follows.pure a
  · exact Follows.throw _

theorem ofCells_follows (rows cols : Nat) (cells : List Float) :
    Follows Value.loose
      (if cells.length = rows * cols then pure (Content.block ⟨rows, cols, cells⟩)
        else throw (.dimensionality .matrix (.elements (rows * cols)) (.elements cells.length)))
      ((Matrix.ofCells rows cols cells).map .matrix) := by
  unfold Matrix.ofCells Matrix.ofCells?
  by_cases hlength : cells.length = rows * cols
  · rw [if_pos hlength, dif_pos hlength]
    exact Follows.pure (Value.matrix ⟨rows, cols, cells, hlength⟩)
  · rw [if_neg hlength, dif_neg hlength]
    exact Follows.throw _

end

variable {slots : Array Value}

mutual

/-- **Evaluation** looks up nothing that is not there. -/
theorem evalLoose_follows {branching : Branching} (t : Tree Nat)
    (hshort : ShortRows branching slots t.subterms) :
    Follows Value.loose (t.evalLoose branching (slots.map Value.loose))
      (t.eval branching slots) := by
  match t with
  | .number x => exact Follows.pure (Value.scalar x)
  | .variable slot =>
    simp only [evalLoose, eval, Array.getElem?_map]
    cases slots[slot]? with
    | some v => exact Follows.pure v
    | none => exact Follows.throw _
  | .unary op operand =>
    simp only [evalLoose, eval]
    refine (evalLoose_follows operand hshort.tail).bind fun a _ => ?_
    rw [map_loose]
    exact Follows.pure (op.apply a)
  | .binary op left right =>
    simp only [evalLoose, eval]
    refine (evalLoose_follows left hshort.tail.left).bind fun a _ => ?_
    refine (evalLoose_follows right hshort.tail.right).bind fun b _ => ?_
    exact applyBinary_loose op a b
  | .choice condition yes no =>
    simp only [evalLoose, eval]
    have hcondition := evalLoose_follows condition hshort.tail.left.left
    refine hcondition.bind fun c _ => (expectScalar_follows .choice c).bind fun x _ => ?_
    cases branching with
    | selected =>
      simp only [id_eq]
      split
      · exact evalLoose_follows yes hshort.tail.left.right
      · exact evalLoose_follows no hshort.tail.right
    | both =>
      refine (evalLoose_follows yes hshort.tail.left.right).bind fun a _ => ?_
      refine (evalLoose_follows no hshort.tail.right).bind fun b _ => ?_
      exact commonBranch_follows a b
  | .call f args =>
    simp only [evalLoose, eval]
    refine (evalAllLoose_follows args hshort.tail).bind fun vs hvs => ?_
    refine apply_follows fun a b hf hvalues => ?_
    subst hf hvalues
    exact hshort.length_lt hvs
  | .matrix rows cols elements =>
    simp only [evalLoose, eval]
    refine (evalElementsLoose_follows elements hshort.tail).bind fun cells _ => ?_
    have hmatrix : (Matrix.ofCells rows cols cells >>= fun m => pure (Value.matrix m)) =
        (Matrix.ofCells rows cols cells).map .matrix := by
      cases Matrix.ofCells rows cols cells <;> rfl
    rw [hmatrix]
    exact ofCells_follows rows cols cells

theorem evalAllLoose_follows {branching : Branching} (ts : List (Tree Nat))
    (hshort : ShortRows branching slots (subtermsOfAll ts)) :
    Follows (List.map Value.loose) (evalAllLoose branching (slots.map Value.loose) ts)
      (evalAll branching slots ts) := by
  match ts with
  | [] => exact Follows.pure []
  | t :: ts =>
    simp only [evalAllLoose, evalAll]
    refine (evalLoose_follows t hshort.left).bind fun v _ => ?_
    refine (evalAllLoose_follows ts hshort.right).bind fun vs _ => ?_
    exact Follows.pure (v :: vs)

theorem evalElementsLoose_follows {branching : Branching} (ts : List (Tree Nat))
    (hshort : ShortRows branching slots (subtermsOfAll ts)) :
    Follows id (evalElementsLoose branching (slots.map Value.loose) ts)
      (evalElements branching slots ts) := by
  match ts with
  | [] => exact Follows.pure []
  | t :: ts =>
    simp only [evalElementsLoose, evalElements]
    refine (evalLoose_follows t hshort.left).bind fun v _ => ?_
    refine (expectScalar_follows .literal v).bind fun x _ => ?_
    refine (evalElementsLoose_follows ts hshort.right).bind fun xs _ => ?_
    exact Follows.pure (x :: xs)

end

end MapAlgebra.Expr.Tree
