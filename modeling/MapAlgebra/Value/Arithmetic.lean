import MapAlgebra.Value.Error

/-!
# Operators on values

What each operator does to two samples, and how it pairs the cells of its operands: cell by cell,
every cell with one scalar, or as the matrix product.
-/

namespace MapAlgebra

/-- A sample counts as true when it is a number other than zero. -/
def truthy (x : Float) : Bool := x != 0.0 && !x.isNaN

/-- The sample of a truth value. -/
def flag (b : Bool) : Float := if b then 1.0 else 0.0

/-- Divisors of smaller magnitude count as zero. -/
def divisionThreshold : Float := 1e-10

/-- The quotient, or no number when the divisor counts as zero. -/
def quotient (x y : Float) : Float :=
  if y.abs < divisionThreshold then Number.nan else x / y

/-- What a prefix operator does to a sample. -/
def UnaryOp.onSample : UnaryOp → Float → Float
  | .negate, x => -x
  | .not, x => flag (!truthy x)

/-- What a binary operator does to two samples. -/
def BinaryOp.onSamples : BinaryOp → Float → Float → Float
  | .add, x, y => x + y
  | .subtract, x, y => x - y
  | .multiply, x, y | .cellMultiply, x, y | .scalarMultiply, x, y => x * y
  | .divide, x, y | .cellDivide, x, y | .scalarDivide, x, y => quotient x y
  | .power, x, y | .cellPower, x, y | .scalarPower, x, y => x.pow y
  | .equal, x, y => flag (x == y)
  | .unequal, x, y => flag (x != y)
  | .less, x, y => flag (x < y)
  | .atMost, x, y => flag (x ≤ y)
  | .greater, x, y => flag (y < x)
  | .atLeast, x, y => flag (y ≤ x)
  | .and, x, y => flag (truthy x && truthy y)
  | .or, x, y => flag (truthy x || truthy y)

/-- How an operator pairs the cells of its operands. -/
inductive Pairing where
  /-- Cell by cell; a scalar meets every cell. -/
  | cells
  /-- Every cell of the left operand with the right operand, which is a scalar. -/
  | byScalar
  /-- The matrix product of two matrices, else cell by cell. -/
  | product
  deriving DecidableEq, Repr

/-- The pairing of each operator. -/
def BinaryOp.pairing : BinaryOp → Pairing
  | .multiply => .product
  | .divide | .scalarDivide | .scalarMultiply | .scalarPower => .byScalar
  | _ => .cells

/-- Apply a prefix operator to every cell. -/
def UnaryOp.apply (op : UnaryOp) (v : Value) : Value :=
  v.map op.onSample

/-- Apply a binary operator to two values. -/
def BinaryOp.apply (op : BinaryOp) (a b : Value) : Except EvalError Value :=
  match op.pairing with
  | .cells => Value.zipWith (.binary op) op.onSamples a b
  | .byScalar =>
    match b.expectScalar (.binary op) with
    | .ok y => .ok (a.map (op.onSamples · y))
    | .error e => .error e
  | .product =>
    match a, b with
    | .matrix l, .matrix r => (l.product r).map .matrix
    | _, _ => Value.zipWith (.binary op) op.onSamples a b

end MapAlgebra
