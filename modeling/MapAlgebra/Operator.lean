/-!
# Operators

The prefix and binary operators of formulas and how each is spelled. Multiplication, division and
power come in several kinds, told apart by how they treat matrices: cell by cell, by one scalar, or
as the matrix product.
-/

namespace MapAlgebra

/-- The prefix operators. -/
inductive UnaryOp where
  /-- `-`. -/
  | negate
  /-- `!`. -/
  | not
  deriving DecidableEq, Repr

/-- The binary operators. -/
inductive BinaryOp where
  /-- `+`. -/
  | add
  /-- `-`. -/
  | subtract
  /-- `*`: a product of scalars, a scaling, or the matrix product. -/
  | multiply
  /-- `/`: the divisor is a scalar. -/
  | divide
  /-- `div`: division cell by cell. -/
  | cellDivide
  /-- `dv`: division by a scalar. -/
  | scalarDivide
  /-- `mult`: multiplication cell by cell. -/
  | cellMultiply
  /-- `mlt`: multiplication by a scalar. -/
  | scalarMultiply
  /-- `^`: power cell by cell. -/
  | power
  /-- `pow`: power cell by cell. -/
  | cellPower
  /-- `pw`: power by a scalar exponent. -/
  | scalarPower
  /-- `==`. -/
  | equal
  /-- `!=`. -/
  | unequal
  /-- `<`. -/
  | less
  /-- `<=`. -/
  | atMost
  /-- `>`. -/
  | greater
  /-- `>=`. -/
  | atLeast
  /-- `&&`. -/
  | and
  /-- `||`. -/
  | or
  deriving DecidableEq, Repr

/-- A prefix operator as it is written. -/
def UnaryOp.symbol : UnaryOp → String
  | .negate => "-"
  | .not => "!"

/-- A binary operator as it is written. -/
def BinaryOp.symbol : BinaryOp → String
  | .add => "+"
  | .subtract => "-"
  | .multiply => "*"
  | .divide => "/"
  | .cellDivide => "div"
  | .scalarDivide => "dv"
  | .cellMultiply => "mult"
  | .scalarMultiply => "mlt"
  | .power => "^"
  | .cellPower => "pow"
  | .scalarPower => "pw"
  | .equal => "=="
  | .unequal => "!="
  | .less => "<"
  | .atMost => "<="
  | .greater => ">"
  | .atLeast => ">="
  | .and => "&&"
  | .or => "||"

/-- The binary operators that are spelled as a word. -/
def BinaryOp.words : List BinaryOp :=
  [.cellDivide, .scalarDivide, .cellMultiply, .scalarMultiply, .cellPower, .scalarPower]

/-- Whether a binary operator is spelled as a word. -/
def BinaryOp.isWord (op : BinaryOp) : Bool :=
  words.contains op

/-- The word operator spelled `word`. -/
def BinaryOp.ofWord? (word : String) : Option BinaryOp :=
  words.find? (·.symbol == word)

/-! ### Precedence -/

/-- The five tiers of binary operators that associate to the left, loosest first. -/
inductive Tier where
  /-- `||`. -/
  | disjunction
  /-- `&&`. -/
  | conjunction
  /-- The six comparisons. -/
  | comparison
  /-- `+` and `-`. -/
  | sum
  /-- Multiplications and divisions. -/
  | product
  deriving DecidableEq, Repr

/-- All tiers, loosest first. -/
def Tier.all : List Tier :=
  [.disjunction, .conjunction, .comparison, .sum, .product]

/-- The tier of a binary operator; a power belongs to none, as it binds tighter than a prefix
operator and associates to the right. -/
def BinaryOp.tier? : BinaryOp → Option Tier
  | .or => some .disjunction
  | .and => some .conjunction
  | .equal | .unequal | .less | .atMost | .greater | .atLeast => some .comparison
  | .add | .subtract => some .sum
  | .multiply | .divide | .cellDivide | .scalarDivide | .cellMultiply | .scalarMultiply =>
    some .product
  | .power | .cellPower | .scalarPower => none

end MapAlgebra
