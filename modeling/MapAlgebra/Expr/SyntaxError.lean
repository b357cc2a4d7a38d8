import MapAlgebra.Expr.Token
import MapAlgebra.Function.Basic

/-!
# Faults of notation

Why a text is no formula, with the place it is reported at. The cause is a constructor; the wording
is in `Cause.message`.
-/

namespace MapAlgebra.Expr

/-- How many levels a formula may be nested. -/
def maxDepth : Nat := 256

/-- What must come next at some place of a formula. -/
inductive Expected where
  /-- The colon of a conditional. -/
  | choiceColon
  /-- The parenthesis that closes a group. -/
  | closingParen
  /-- More arguments or the end of them. -/
  | argumentsEnd
  /-- More elements of a matrix or the end of them. -/
  | elementsEnd
  deriving DecidableEq, Repr

/-- What must come next, in words. -/
def Expected.text : Expected → String
  | .choiceColon => "':' in conditional"
  | .closingParen => "')'"
  | .argumentsEnd => "',' or ')' in argument list"
  | .elementsEnd => "',', ';' or '\x7d' in matrix"

/-- Why a text is no formula. -/
inductive Cause where
  /-- No token starts with this character. -/
  | strayCharacter (c : Char)
  /-- What is taken for a numeral is no number. -/
  | badNumeral (literal : String)
  /-- The formula is nested too deeply. -/
  | tooDeep
  /-- Something else must come next; no token stands for the end. -/
  | expected (what : Expected) (found : Option Token)
  /-- A formula is complete, but a token follows. -/
  | leftover (found : Token)
  /-- A word operator stands where an operand must begin. -/
  | missingLeftOperand (op : BinaryOp)
  /-- The text ends where an operand must begin. -/
  | unexpectedEnd
  /-- A token stands where an operand must begin. -/
  | unexpected (found : Token)
  /-- No function has this name. -/
  | unknownFunction (name : String)
  /-- A function, as it was spelled, has a wrong number of arguments. -/
  | argumentCount (name : String) (arity : Arity) (count : Nat)
  /-- A matrix has no element. -/
  | emptyMatrix
  /-- A matrix has rows of different lengths. -/
  | raggedMatrix
  deriving DecidableEq

/-- The wording of a cause. -/
def Cause.message : Cause → String
  | .strayCharacter c => s!"Unexpected character '{c}'"
  | .badNumeral literal => s!"Invalid number '{literal}'"
  | .tooDeep => s!"Expression nested more than {maxDepth} levels deep"
  | .expected what found => s!"Expected {what.text}, found {describeNext found}"
  | .leftover found => s!"Unexpected {found.describe} after expression"
  | .missingLeftOperand op => s!"Operator '{op.symbol}' is missing its left operand"
  | .unexpectedEnd => "Unexpected end of expression"
  | .unexpected found => s!"Unexpected {found.describe}"
  | .unknownFunction name => s!"Unknown function '{name}'"
  | .argumentCount name arity count => s!"Function '{name}' expects {arity.text}, got {count}"
  | .emptyMatrix => "Empty matrix literal"
  | .raggedMatrix => "Matrix rows must all have the same number of elements"

/-- A fault of notation and the character it is reported at. -/
structure SyntaxError where
  /-- How many characters come before the place of the fault. -/
  position : Nat
  /-- What is wrong there. -/
  cause : Cause
  deriving DecidableEq

end MapAlgebra.Expr
