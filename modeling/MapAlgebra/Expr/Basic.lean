import MapAlgebra.Expr.Grammar
import MapAlgebra.Expr.Lexer

/-!
# Formulas

A formula is a text and the tree it stands for. At the top, formulas apart by semicolons make up one
row: two or more of them stand for a call of `cat`. The names of a formula are then bound to slots.
-/

namespace MapAlgebra.Expr

/-- A text that is a formula, and its tree. -/
structure Formula where
  /-- The text. -/
  source : String
  /-- Its tree. -/
  tree : Tree String

/-- The tree of formulas apart by semicolons. -/
def sequenceTree : List (Tree String) → Tree String
  | [t] => t
  | ts => .call .cat ts

/-- The tree of a list of tokens, which must all be taken. -/
def treeOfTokens (ts : List Placed) : Outcome (Tree String) :=
  ((Rung.ofLevels maxDepth).formula.list .semicolon true ts).andThen fun items rest =>
    match rest with
    | [] => .ok (sequenceTree items) []
    | t :: _ => .fault rest (.leftover t.token)

namespace Formula

/-- Read a text as a formula. A fault at the end of the text is reported at its length. -/
def parse (text : String) : Except SyntaxError Formula :=
  match tokenize text.toList with
  | .error e => .error e
  | .ok ts =>
    match treeOfTokens ts with
    | .ok tree _ => .ok ⟨text, tree⟩
    | .fault rest cause => .error ⟨(rest.head?.map (·.offset)).getD text.length, cause⟩

/-- The variables of a formula, in order of first appearance. -/
def identifiers (f : Formula) : List String :=
  f.tree.references.eraseDups

end Formula

/-! ### Binding -/

/-- A formula whose variables are slot numbers. -/
structure Program where
  /-- The bound tree. -/
  tree : Tree Nat

namespace Program

/-- The slots a program reads, in order of first appearance. -/
def slots (p : Program) : List Nat :=
  p.tree.references.eraseDups

end Program

/-- Replace every name of a formula by a slot, or fail as the first name that has none. -/
def Formula.bind {ε : Type} (f : Formula) (resolve : String → Except ε Nat) : Except ε Program :=
  match f.tree.traverse resolve with
  | .ok tree => .ok ⟨tree⟩
  | .error e => .error e

end MapAlgebra.Expr
