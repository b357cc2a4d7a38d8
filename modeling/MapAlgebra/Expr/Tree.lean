import MapAlgebra.Function.Basic

/-!
# Formula trees

The tree of a formula, over any way `ν` of referring to variables: names when it has been read, slot
numbers when it has been bound.
-/

namespace MapAlgebra.Expr

/-- A formula as a tree. -/
inductive Tree (ν : Type) where
  /-- A number. -/
  | number (x : Float)
  /-- A variable. -/
  | variable (v : ν)
  /-- A prefix operator and its operand. -/
  | unary (op : UnaryOp) (operand : Tree ν)
  /-- A binary operator and its operands. -/
  | binary (op : BinaryOp) (left right : Tree ν)
  /-- A condition and what holds if it is true and if it is not. -/
  | choice (condition yes no : Tree ν)
  /-- A function and its arguments. -/
  | call (f : Function) (args : List (Tree ν))
  /-- A matrix of the given shape and its elements, row by row. -/
  | matrix (rows cols : Nat) (elements : List (Tree ν))

namespace Tree

variable {ν μ ε : Type}

mutual

/-- The variables of a formula from left to right, repetitions included. -/
def references : Tree ν → List ν
  | .number _ => []
  | .variable v => [v]
  | .unary _ operand => operand.references
  | .binary _ left right => left.references ++ right.references
  | .choice condition yes no => condition.references ++ yes.references ++ no.references
  | .call _ args => referencesOfAll args
  | .matrix _ _ elements => referencesOfAll elements

/-- The variables of a list of formulas from left to right. -/
def referencesOfAll : List (Tree ν) → List ν
  | [] => []
  | t :: ts => t.references ++ referencesOfAll ts

end

mutual

/-- Replace every variable from left to right, or fail as the first replacement that fails. -/
def traverse (f : ν → Except ε μ) : Tree ν → Except ε (Tree μ)
  | .number x => return .number x
  | .variable v => return .variable (← f v)
  | .unary op operand => return .unary op (← operand.traverse f)
  | .binary op left right => return .binary op (← left.traverse f) (← right.traverse f)
  | .choice condition yes no =>
    return .choice (← condition.traverse f) (← yes.traverse f) (← no.traverse f)
  | .call g args => return .call g (← traverseAll f args)
  | .matrix rows cols elements => return .matrix rows cols (← traverseAll f elements)

/-- Replace every variable of a list of formulas from left to right. -/
def traverseAll (f : ν → Except ε μ) : List (Tree ν) → Except ε (List (Tree μ))
  | [] => return []
  | t :: ts => return (← t.traverse f) :: (← traverseAll f ts)

end

end Tree

end MapAlgebra.Expr
