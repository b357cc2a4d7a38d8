import MapAlgebra.Expr.Eval

/-!
# Renamed variables

A formula whose variables are renamed (`Tree.rename`). Binding the names of a formula is renaming
them, if all of them are bound (**`Tree.traverse_eq_rename`**), and a renamed formula has the value
of the formula itself on slots that agree along the renaming (**`Tree.eval_rename`**).
-/

namespace MapAlgebra.Expr

variable {ν μ κ ε : Type}

namespace Tree

mutual

/-- A formula with other variables in the places of its own. -/
def rename (σ : ν → μ) : Tree ν → Tree μ
  | .number x => .number x
  | .variable v => .variable (σ v)
  | .unary op operand => .unary op (operand.rename σ)
  | .binary op left right => .binary op (left.rename σ) (right.rename σ)
  | .choice condition yes no => .choice (condition.rename σ) (yes.rename σ) (no.rename σ)
  | .call f args => .call f (renameAll σ args)
  | .matrix rows cols elements => .matrix rows cols (renameAll σ elements)

/-- A list of formulas with other variables in the places of their own. -/
def renameAll (σ : ν → μ) : List (Tree ν) → List (Tree μ)
  | [] => []
  | t :: ts => t.rename σ :: renameAll σ ts

end

/-! ### Binding -/

section Binding

variable {σ : ν → μ} {f : ν → Except ε μ}

mutual

/-- Replacing the variables of a formula, if that never fails, is renaming them. -/
theorem traverse_eq_rename (t : Tree ν) (h : ∀ v ∈ t.references, f v = .ok (σ v)) :
    t.traverse f = .ok (t.rename σ) := by
  match t with
  | .number _ => rfl
  | .variable v =>
    simp only [traverse, h v (List.mem_singleton.2 rfl)]
    rfl
  | .unary _ operand =>
    simp only [traverse, traverse_eq_rename operand h]
    rfl
  | .binary _ left right =>
    obtain ⟨hleft, hright⟩ := List.forall_mem_append.1 h
    simp only [traverse, traverse_eq_rename left hleft, traverse_eq_rename right hright]
    rfl
  | .choice condition yes no =>
    obtain ⟨hboth, hno⟩ := List.forall_mem_append.1 h
    obtain ⟨hcondition, hyes⟩ := List.forall_mem_append.1 hboth
    simp only [traverse, traverse_eq_rename condition hcondition, traverse_eq_rename yes hyes,
      traverse_eq_rename no hno]
    rfl
  | .call _ args =>
    simp only [traverse, traverseAll_eq_renameAll args h]
    rfl
  | .matrix _ _ elements =>
    simp only [traverse, traverseAll_eq_renameAll elements h]
    rfl

theorem traverseAll_eq_renameAll (ts : List (Tree ν))
    (h : ∀ v ∈ referencesOfAll ts, f v = .ok (σ v)) :
    traverseAll f ts = .ok (renameAll σ ts) := by
  match ts with
  | [] => rfl
  | t :: ts =>
    obtain ⟨hfirst, hrest⟩ := List.forall_mem_append.1 h
    simp only [traverseAll, traverse_eq_rename t hfirst, traverseAll_eq_renameAll ts hrest]
    rfl

end

end Binding

/-! ### Renaming twice -/

section Composition

variable {σ : ν → μ} {τ : μ → κ} {ρ : ν → κ}

mutual

/-- A formula renamed twice is renamed once, by what comes of each of its variables. -/
theorem rename_rename (t : Tree ν) (h : ∀ v ∈ t.references, τ (σ v) = ρ v) :
    (t.rename σ).rename τ = t.rename ρ := by
  match t with
  | .number _ => rfl
  | .variable v => simp only [rename, h v (List.mem_singleton.2 rfl)]
  | .unary _ operand => simp only [rename, rename_rename operand h]
  | .binary _ left right =>
    obtain ⟨hleft, hright⟩ := List.forall_mem_append.1 h
    simp only [rename, rename_rename left hleft, rename_rename right hright]
  | .choice condition yes no =>
    obtain ⟨hboth, hno⟩ := List.forall_mem_append.1 h
    obtain ⟨hcondition, hyes⟩ := List.forall_mem_append.1 hboth
    simp only [rename, rename_rename condition hcondition, rename_rename yes hyes,
      rename_rename no hno]
  | .call _ args => simp only [rename, renameAll_renameAll args h]
  | .matrix _ _ elements => simp only [rename, renameAll_renameAll elements h]

theorem renameAll_renameAll (ts : List (Tree ν)) (h : ∀ v ∈ referencesOfAll ts, τ (σ v) = ρ v) :
    renameAll τ (renameAll σ ts) = renameAll ρ ts := by
  match ts with
  | [] => rfl
  | t :: ts =>
    obtain ⟨hfirst, hrest⟩ := List.forall_mem_append.1 h
    simp only [renameAll, rename_rename t hfirst, renameAll_renameAll ts hrest]

end

end Composition

section References

variable (σ : ν → μ)

mutual

/-- The variables of a renamed formula are those of the formula, renamed. -/
theorem references_rename (t : Tree ν) : (t.rename σ).references = t.references.map σ := by
  match t with
  | .number _ => rfl
  | .variable _ => rfl
  | .unary _ operand => exact references_rename operand
  | .binary _ left right =>
    simp only [rename, references, references_rename left, references_rename right,
      List.map_append]
  | .choice condition yes no =>
    simp only [rename, references, references_rename condition, references_rename yes,
      references_rename no, List.map_append]
  | .call _ args => exact referencesOfAll_renameAll args
  | .matrix _ _ elements => exact referencesOfAll_renameAll elements

theorem referencesOfAll_renameAll (ts : List (Tree ν)) :
    referencesOfAll (renameAll σ ts) = (referencesOfAll ts).map σ := by
  match ts with
  | [] => rfl
  | t :: ts =>
    simp only [renameAll, referencesOfAll, references_rename t, referencesOfAll_renameAll ts,
      List.map_append]

end

end References

end Tree

/-! ### Values -/

/-- Slot values that agree along a renaming: what is in a slot is in the slot it is renamed to. -/
def AgreeAlong (σ : Nat → Nat) (slots : List Nat) (s s' : Array Value) : Prop :=
  ∀ slot ∈ slots, ∃ v, s[slot]? = some v ∧ s'[σ slot]? = some v

namespace AgreeAlong

variable {σ : Nat → Nat} {xs ys : List Nat} {s s' : Array Value}

theorem left (h : AgreeAlong σ (xs ++ ys) s s') : AgreeAlong σ xs s s' :=
  (List.forall_mem_append.1 h).1

theorem right (h : AgreeAlong σ (xs ++ ys) s s') : AgreeAlong σ ys s s' :=
  (List.forall_mem_append.1 h).2

end AgreeAlong

namespace Tree

variable {σ : Nat → Nat} {branching : Branching} {s s' : Array Value}

mutual

/-- A renamed formula has the value of the formula, on slots that agree along the renaming. -/
theorem eval_rename (t : Tree Nat) (h : AgreeAlong σ t.references s s') :
    (t.rename σ).eval branching s' = t.eval branching s := by
  match t with
  | .number _ => rfl
  | .variable slot =>
    obtain ⟨v, hv, hv'⟩ := h slot (List.mem_singleton.2 rfl)
    simp only [rename, eval, hv, hv']
  | .unary _ operand =>
    simp only [rename, eval]
    rw [eval_rename operand h]
  | .binary _ left right =>
    simp only [rename, eval]
    rw [eval_rename left h.left, eval_rename right h.right]
  | .choice condition yes no =>
    have hcondition : (condition.rename σ).eval branching s' = condition.eval branching s :=
      eval_rename condition h.left.left
    have hyes : (yes.rename σ).eval branching s' = yes.eval branching s :=
      eval_rename yes h.left.right
    have hno : (no.rename σ).eval branching s' = no.eval branching s := eval_rename no h.right
    simp only [rename, eval]
    rw [hcondition]
    cases branching with
    | selected => rw [hyes, hno]
    | both => rw [hyes, hno]
  | .call _ args =>
    simp only [rename, eval]
    rw [evalAll_renameAll args h]
  | .matrix _ _ elements =>
    simp only [rename, eval]
    rw [evalElements_renameAll elements h]

theorem evalAll_renameAll (ts : List (Tree Nat)) (h : AgreeAlong σ (referencesOfAll ts) s s') :
    evalAll branching s' (renameAll σ ts) = evalAll branching s ts := by
  match ts with
  | [] => rfl
  | t :: ts =>
    simp only [renameAll, evalAll]
    rw [eval_rename t h.left, evalAll_renameAll ts h.right]

theorem evalElements_renameAll (ts : List (Tree Nat))
    (h : AgreeAlong σ (referencesOfAll ts) s s') :
    evalElements branching s' (renameAll σ ts) = evalElements branching s ts := by
  match ts with
  | [] => rfl
  | t :: ts =>
    simp only [renameAll, evalElements]
    rw [eval_rename t h.left, evalElements_renameAll ts h.right]

end

end Tree

end MapAlgebra.Expr
