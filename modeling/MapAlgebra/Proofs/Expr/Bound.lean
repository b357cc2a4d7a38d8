import MapAlgebra.Expr.Eval
import MapAlgebra.Proofs.Value.Fault

/-!
# Formulas whose variables have values

If every slot that a formula refers to has a value, an evaluation never finds a variable without
one, whether it succeeds or not. Main statement: **`Program.overValues_probe`**.
-/

namespace MapAlgebra.Expr

/-- Slots that have a value. -/
def Bound (slots : List Nat) (s : Array Value) : Prop :=
  ∀ slot ∈ slots, ∃ v, s[slot]? = some v

namespace Bound

variable {xs ys : List Nat} {s : Array Value}

theorem left (h : Bound (xs ++ ys) s) : Bound xs s :=
  fun slot hx => h slot (List.mem_append_left ys hx)

theorem right (h : Bound (xs ++ ys) s) : Bound ys s :=
  fun slot hy => h slot (List.mem_append_right xs hy)

end Bound

theorem overValues_commonBranch (yes no : Value) : OverValues (commonBranch yes no) := by
  unfold commonBranch
  split <;> trivial

namespace Tree

variable {branching : Branching} {s : Array Value}

mutual

/-- What goes wrong with a formula whose slots have values lies in the values. -/
theorem overValues_eval (t : Tree Nat) (h : Bound t.references s) :
    OverValues (t.eval branching s) := by
  match t with
  | .number _ => trivial
  | .variable slot =>
    obtain ⟨v, hv⟩ := h slot (List.mem_singleton.2 rfl)
    simp only [eval, hv]
    trivial
  | .unary _ operand =>
    simp only [eval]
    exact (overValues_eval operand h).bind fun _ => trivial
  | .binary op left right =>
    simp only [eval]
    exact (overValues_eval left h.left).bind fun a =>
      (overValues_eval right h.right).bind fun b => op.overValues_apply a b
  | .choice condition yes no =>
    have hyes : OverValues (yes.eval branching s) := overValues_eval yes h.left.right
    have hno : OverValues (no.eval branching s) := overValues_eval no h.right
    simp only [eval]
    refine (overValues_eval condition h.left.left).bind fun c =>
      (c.overValues_expectScalar .choice).bind fun x => ?_
    cases branching with
    | selected =>
      show OverValues (if truthy x then yes.eval .selected s else no.eval .selected s)
      split
      · exact hyes
      · exact hno
    | both => exact hyes.bind fun a => hno.bind fun b => overValues_commonBranch a b
  | .call f args =>
    simp only [eval]
    exact (overValues_evalAll args h).bind fun as => f.overValues_apply as
  | .matrix rows cols elements =>
    simp only [eval]
    exact (overValues_evalElements elements h).bind fun cells =>
      (Matrix.overValues_ofCells rows cols cells).bind fun _ => trivial

theorem overValues_evalAll (ts : List (Tree Nat)) (h : Bound (referencesOfAll ts) s) :
    OverValues (evalAll branching s ts) := by
  match ts with
  | [] => trivial
  | t :: ts =>
    simp only [evalAll]
    exact (overValues_eval t h.left).bind fun _ =>
      (overValues_evalAll ts h.right).bind fun _ => trivial

theorem overValues_evalElements (ts : List (Tree Nat)) (h : Bound (referencesOfAll ts) s) :
    OverValues (evalElements branching s ts) := by
  match ts with
  | [] => trivial
  | t :: ts =>
    simp only [evalElements]
    exact (overValues_eval t h.left).bind fun v =>
      (v.overValues_expectScalar .literal).bind fun _ =>
        (overValues_evalElements ts h.right).bind fun _ => trivial

end

end Tree

/-- **Bound formulas**: a probe of a program whose slots have values finds none without one. -/
theorem Program.overValues_probe (p : Program) {s : Array Value} (h : Bound p.tree.references s) :
    OverValues (p.probe s) :=
  p.tree.overValues_eval h

end MapAlgebra.Expr
