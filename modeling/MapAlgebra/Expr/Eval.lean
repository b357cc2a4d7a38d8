import MapAlgebra.Expr.Basic
import MapAlgebra.Function.Apply

/-!
# Evaluation

The value of a bound formula under given slot values. A conditional takes one branch. A probe takes
both and asks them to be of one kind, so what it finds out about shapes holds whichever branch is
taken later.
-/

namespace MapAlgebra.Expr

/-- What a conditional does. -/
inductive Branching where
  /-- Take the branch that the condition selects. -/
  | selected
  /-- Take both branches, which must have one shape and kind. -/
  | both
  deriving DecidableEq, Repr

/-- The first of two branches, which must be of one shape and kind. -/
def commonBranch (yes no : Value) : Except EvalError Value :=
  if yes.shape = no.shape ∧ yes.isScalar = no.isScalar then .ok yes
  else .error (.shapeMismatch .choice yes.shape no.shape)

namespace Tree

mutual

/-- The value of a formula. -/
def eval (branching : Branching) (slots : Array Value) : Tree Nat → Except EvalError Value
  | .number x => return .scalar x
  | .variable slot =>
    match slots[slot]? with
    | some v => return v
    | none => throw (.unboundSlot slot)
  | .unary op operand => return op.apply (← operand.eval branching slots)
  | .binary op left right => do
    let a ← left.eval branching slots
    let b ← right.eval branching slots
    op.apply a b
  | .choice condition yes no => do
    let c ← (← condition.eval branching slots).expectScalar .choice
    match branching with
    | .selected => if truthy c then yes.eval .selected slots else no.eval .selected slots
    | .both =>
      let a ← yes.eval .both slots
      let b ← no.eval .both slots
      commonBranch a b
  | .call f args => do f.apply (← evalAll branching slots args)
  | .matrix rows cols elements => do
    return .matrix (← Matrix.ofCells rows cols (← evalElements branching slots elements))

/-- The values of a list of formulas, from left to right. -/
def evalAll (branching : Branching) (slots : Array Value) :
    List (Tree Nat) → Except EvalError (List Value)
  | [] => return []
  | t :: ts => return (← t.eval branching slots) :: (← evalAll branching slots ts)

/-- The samples of the elements of a matrix, each of which must be a scalar. -/
def evalElements (branching : Branching) (slots : Array Value) :
    List (Tree Nat) → Except EvalError (List Float)
  | [] => return []
  | t :: ts => do
    let x ← (← t.eval branching slots).expectScalar .literal
    return x :: (← evalElements branching slots ts)

end

end Tree

namespace Program

/-- The value of a program under given slot values. -/
def evaluate (p : Program) (slots : Array Value) : Except EvalError Value :=
  p.tree.eval .selected slots

/-- The value of a program under placeholders, both branches of every conditional tried. -/
def probe (p : Program) (slots : Array Value) : Except EvalError Value :=
  p.tree.eval .both slots

end Program

end MapAlgebra.Expr
