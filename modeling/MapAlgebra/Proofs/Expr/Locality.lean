import MapAlgebra.Expr.Eval

/-!
# What an evaluation reads

The value of a formula depends on the slots it refers to and on no other, whether its conditionals
take one branch or both.
-/

namespace MapAlgebra.Expr

/-- Two lists of slot values that agree at given slots. -/
def AgreeOn (slots : List Nat) (s s' : Array Value) : Prop :=
  ∀ slot ∈ slots, s[slot]? = s'[slot]?

namespace AgreeOn

variable {xs ys : List Nat} {s s' : Array Value}

theorem left (h : AgreeOn (xs ++ ys) s s') : AgreeOn xs s s' :=
  fun slot hx => h slot (List.mem_append_left ys hx)

theorem right (h : AgreeOn (xs ++ ys) s s') : AgreeOn ys s s' :=
  fun slot hy => h slot (List.mem_append_right xs hy)

end AgreeOn

namespace Tree

variable {branching : Branching} {s s' : Array Value}

mutual

/-- A formula has one value under slot values that agree at the slots it refers to. -/
theorem eval_congr (t : Tree Nat) (h : AgreeOn t.references s s') :
    t.eval branching s = t.eval branching s' := by
  match t with
  | .number _ => rfl
  | .variable slot => simp only [eval, h slot (List.mem_singleton.2 rfl)]
  | .unary _ operand =>
    simp only [eval]
    rw [eval_congr operand h]
  | .binary _ left right =>
    simp only [eval]
    rw [eval_congr left h.left, eval_congr right h.right]
  | .choice condition yes no =>
    have hcondition : condition.eval branching s = condition.eval branching s' :=
      eval_congr condition h.left.left
    have hyes : yes.eval branching s = yes.eval branching s' := eval_congr yes h.left.right
    have hno : no.eval branching s = no.eval branching s' := eval_congr no h.right
    simp only [eval]
    rw [hcondition]
    cases branching with
    | selected => rw [hyes, hno]
    | both => rw [hyes, hno]
  | .call _ args =>
    simp only [eval]
    rw [evalAll_congr args h]
  | .matrix _ _ elements =>
    simp only [eval]
    rw [evalElements_congr elements h]

theorem evalAll_congr (ts : List (Tree Nat)) (h : AgreeOn (referencesOfAll ts) s s') :
    evalAll branching s ts = evalAll branching s' ts := by
  match ts with
  | [] => rfl
  | t :: ts =>
    simp only [evalAll]
    rw [eval_congr t h.left, evalAll_congr ts h.right]

theorem evalElements_congr (ts : List (Tree Nat)) (h : AgreeOn (referencesOfAll ts) s s') :
    evalElements branching s ts = evalElements branching s' ts := by
  match ts with
  | [] => rfl
  | t :: ts =>
    simp only [evalElements]
    rw [eval_congr t h.left, evalElements_congr ts h.right]

end

end Tree

/-- A program has one value under slot values that agree at the slots it reads. -/
theorem Program.evaluate_congr (p : Program) {s s' : Array Value}
    (h : AgreeOn p.tree.references s s') : p.evaluate s = p.evaluate s' :=
  p.tree.eval_congr h

end MapAlgebra.Expr
