import MapAlgebra.Operator
import MapAlgebra.Decimal.Plain

/-!
# Tokens

The words and marks a formula is made of. A binary operator is one token whether it is spelled as a
mark or as a word.
-/

namespace MapAlgebra.Expr

/-- The marks that are not binary operators. -/
inductive Mark where
  /-- `!`. -/
  | bang
  /-- `?`. -/
  | question
  /-- `:`. -/
  | colon
  /-- `,`. -/
  | comma
  /-- `;`. -/
  | semicolon
  /-- `(`. -/
  | leftParen
  /-- `)`. -/
  | rightParen
  /-- `{`. -/
  | leftBrace
  /-- `}`. -/
  | rightBrace
  deriving DecidableEq, Repr

/-- A mark as it is written. -/
def Mark.symbol : Mark → String
  | .bang => "!"
  | .question => "?"
  | .colon => ":"
  | .comma => ","
  | .semicolon => ";"
  | .leftParen => "("
  | .rightParen => ")"
  | .leftBrace => "\x7b"
  | .rightBrace => "\x7d"

/-- A token. -/
inductive Token where
  /-- A number. -/
  | number (x : Float)
  /-- The name of a variable, a function or a constant. -/
  | name (text : String)
  /-- A binary operator; `+` and `-` are also prefix operators. -/
  | operator (op : BinaryOp)
  /-- Any other mark. -/
  | mark (m : Mark)
  deriving DecidableEq

/-- A token in words, for messages. -/
def Token.describe : Token → String
  | .number x => s!"number {Decimal.plain x}"
  | .name text => s!"identifier '{text}'"
  | .operator op => if op.isWord then s!"operator '{op.symbol}'" else s!"'{op.symbol}'"
  | .mark m => s!"'{m.symbol}'"

/-- The token at the start of a list of tokens in words; no token is the end. -/
def describeNext : Option Token → String
  | some t => t.describe
  | none => "end of expression"

/-- A token and where it starts, in characters. -/
structure Placed where
  /-- The token. -/
  token : Token
  /-- How many characters come before it. -/
  offset : Nat
  deriving DecidableEq

end MapAlgebra.Expr
