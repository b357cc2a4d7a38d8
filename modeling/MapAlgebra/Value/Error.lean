import MapAlgebra.Function.Basic
import MapAlgebra.Value.Basic
import MapAlgebra.Decimal.Plain

/-!
# Faults of shape

Why values cannot be combined: two shapes that must agree do not, a value has not the shape an
operation asks for, a number picks a component that is not there, or a variable has no value. Each
cause is a constructor; the wording is in the `text` functions.
-/

namespace MapAlgebra

/-- What asks for a shape. -/
inductive Operation where
  /-- A binary operator. -/
  | binary (op : BinaryOp)
  /-- A function. -/
  | function (f : Function)
  /-- The conditional. -/
  | choice
  /-- A matrix literal, which asks its elements to be scalars. -/
  | literal
  /-- Making a matrix from its cells. -/
  | matrix
  /-- The declaration of a named matrix. -/
  | declaration
  /-- The result of a formula. -/
  | output
  deriving DecidableEq, Repr

/-- The name of an operation in messages. -/
def Operation.name : Operation → String
  | .binary op => op.symbol
  | .function f => f.name
  | .choice => "?:"
  | .literal => "\x7b\x7d"
  | .matrix => "matrix"
  | .declaration => "declare_matrix"
  | .output => "output"

/-- What an operation asks for. -/
inductive Requirement where
  /-- A scalar, or a matrix of one cell. -/
  | scalar
  /-- A scalar or a matrix of one row. -/
  | scalarOrRow
  /-- Scalars or matrices of one row. -/
  | scalarsOrRows
  /-- A matrix of one row. -/
  | row
  /-- A row whose components number bands. -/
  | indexRow
  /-- A right operand with so many rows. -/
  | operandRows (rows : Nat)
  /-- So many cells. -/
  | elements (count : Nat)
  /-- So many cells in each row. -/
  | elementsPerRow (count : Nat)
  /-- As many cells as a kernel of the given shape has. -/
  | kernelElements (kernel : Shape)
  /-- The values of a matrix of the given shape. -/
  | matrixValues (shape : Shape)
  /-- An argument count. -/
  | arguments (arity : Arity)
  deriving DecidableEq, Repr

/-- A requirement in words. -/
def Requirement.text : Requirement → String
  | .scalar => "a scalar"
  | .scalarOrRow => "a scalar or a 1xN row vector"
  | .scalarsOrRows => "scalars or row vectors"
  | .row => "a row vector"
  | .indexRow => "a row of band indices"
  | .operandRows rows => s!"right operand with {rows} rows"
  | .elements count => s!"{count} elements"
  | .elementsPerRow count => s!"{count} elements per row"
  | .kernelElements kernel => s!"{kernel.size} elements to match the {kernel.text} kernel"
  | .matrixValues shape => s!"{shape.size} values for a {shape.text} matrix"
  | .arguments arity => arity.text

/-- What an operation was given. -/
inductive Finding where
  /-- A value of the given shape. -/
  | shape (shape : Shape)
  /-- So many cells. -/
  | elements (count : Nat)
  /-- A window of the given shape. -/
  | window (shape : Shape)
  /-- So many values. -/
  | values (count : Nat)
  /-- A row of so many elements. -/
  | row (count : Nat)
  /-- So many arguments. -/
  | arguments (count : Nat)
  deriving DecidableEq, Repr

/-- A finding in words. -/
def Finding.text : Finding → String
  | .shape s => s.text
  | .elements count => s!"{count} elements"
  | .window s => s!"{s.text} ({s.size} elements)"
  | .values count => s!"{count} values"
  | .row count => s!"a row of {count} elements"
  | .arguments count => s!"{count} arguments"

/-- Why a formula has no value. -/
inductive EvalError where
  /-- Two values of one operation must have the same shape. -/
  | shapeMismatch (operation : Operation) (left right : Shape)
  /-- A value has not the shape its operation asks for. -/
  | dimensionality (operation : Operation) (expected : Requirement) (found : Finding)
  /-- An index names none of `length` components. -/
  | indexOutOfRange (operation : Operation) (index : Float) (length : Nat)
  /-- A variable has no value. -/
  | unboundSlot (slot : Nat)

/-- The message of a fault. -/
def EvalError.message : EvalError → String
  | .shapeMismatch operation left right =>
    s!"Shape mismatch in '{operation.name}': {left.text} vs {right.text}"
  | .dimensionality operation expected found =>
    s!"Dimensionality error in '{operation.name}': expected {expected.text}, found {found.text}"
  | .indexOutOfRange operation index length =>
    s!"Index {Decimal.plain index} out of range 1..={length} in '{operation.name}'"
  | .unboundSlot slot => s!"Variable slot {slot} is not bound"

namespace Matrix

/-- The matrix of a shape with given cells, or the fault that they are not as many as it says. -/
def ofCells (rows cols : Nat) (cells : List Float) : Except EvalError Matrix :=
  match ofCells? rows cols cells with
  | some m => .ok m
  | none => .error (.dimensionality .matrix (.elements (rows * cols)) (.elements cells.length))

/-- The matrix product, or the fault that the inner sizes differ. -/
def product (a b : Matrix) : Except EvalError Matrix :=
  match a.product? b with
  | some m => .ok m
  | none => .error (.dimensionality (.binary .multiply) (.operandRows a.cols) (.shape b.shape))

end Matrix

namespace Value

/-- The sample of a scalar or of a matrix of one cell, which `operation` asks for. -/
def expectScalar (operation : Operation) (v : Value) : Except EvalError Float :=
  match v.asScalar? with
  | some x => .ok x
  | none => .error (.dimensionality operation .scalar (.shape v.shape))

/-- The components of a scalar or of a row, which `operation` asks for as `required`. -/
def expectRow (operation : Operation) (required : Requirement) (v : Value) :
    Except EvalError (List Float) :=
  match v.asRow? with
  | some xs => .ok xs
  | none => .error (.dimensionality operation required (.shape v.shape))

/-- Combine two values cell by cell, or report that their shapes differ. -/
def zipWith (operation : Operation) (f : Float → Float → Float) (a b : Value) :
    Except EvalError Value :=
  match zipWith? f a b with
  | some v => .ok v
  | none => .error (.shapeMismatch operation a.shape b.shape)

end Value

end MapAlgebra
