import MapAlgebra.Expr.SyntaxError
import MapAlgebra.Raster.Error
import MapAlgebra.Value.Error

/-!
# Failures

Why something asked of a catalog or a session is refused. Failures of a formula carry its text,
which is empty while only a name has been looked at. A failure while cells are evaluated is none of
these: it is counted, and the pass goes on.
-/

namespace MapAlgebra

/-- A session that is not set up as it must be. -/
inductive Misuse where
  /-- A raster without bands is registered. -/
  | noBands
  /-- A name is not made of letters, digits and underscores. -/
  | invalidName (name : String)
  /-- A pass starts without an input. -/
  | noInput
  /-- A pass starts without a formula. -/
  | noExpression
  /-- A formula refers to a slot that has no value. -/
  | unboundSlot (slot : Nat)
  deriving DecidableEq, Repr

/-- A misuse in words. -/
def Misuse.text : Misuse → String
  | .noBands => "input raster has no bands"
  | .invalidName name => s!"'{name}' is not a valid variable name"
  | .noInput => "no input has been registered"
  | .noExpression => "no expression has been compiled"
  | .unboundSlot slot => s!"variable slot {slot} is not bound"

/-- Why a text is not the text of a formula or of a matrix. -/
inductive Malformed where
  /-- The text of a formula has a fault of notation. -/
  | formula (cause : Expr.Cause)
  /-- The text of a matrix does not start with a brace. -/
  | noOpening
  /-- The text of a matrix does not end with a brace. -/
  | noClosing
  /-- There is nothing between the braces of a matrix. -/
  | emptyMatrix
  /-- An element of a matrix is no number. -/
  | notNumber
  deriving DecidableEq

/-- A fault of a text in words. -/
def Malformed.text : Malformed → String
  | .formula cause => cause.message
  | .noOpening => "matrix must start with '\x7b'"
  | .noClosing => "matrix must end with '\x7d'"
  | .emptyMatrix => "matrix is empty"
  | .notNumber => "expected a number"

/-- Why something is refused. -/
inductive Failure where
  /-- The session is not set up as it must be. -/
  | configuration (misuse : Misuse)
  /-- A name is taken. -/
  | nameCollision (name : String)
  /-- Names that nothing answers to. -/
  | unknownVariables (formula : String) (names : List String)
  /-- A band that an input, or a row whose components are picked, does not have. -/
  | bandOutOfRange (formula name : String) (band count : Nat)
  /-- A window with an even side. -/
  | evenWindow (formula name : String) (width height : Nat)
  /-- A text that is not what it should be. -/
  | malformed (text : String) (position : Nat) (reason : Malformed)
  /-- Two values of one operation that differ in shape. -/
  | shapeMismatch (formula : String) (operation : Operation) (left right : Shape)
  /-- A value that has not the shape its operation asks for. -/
  | dimensionality (formula : String) (operation : Operation) (expected : Requirement)
    (found : Finding)
  /-- A pass was called off. -/
  | cancelled
  /-- A raster cannot be made or read. -/
  | raster (e : RasterError)
  deriving DecidableEq

namespace Failure

/-- The message of a failure. -/
def message : Failure → String
  | .configuration misuse => s!"Configuration error: {misuse.text}"
  | .nameCollision name => s!"Name '{name}' is already defined"
  | .unknownVariables formula names =>
    let list := ", ".intercalate names
    s!"Unknown variable(s) {list} in expression '{formula}'"
  | .bandOutOfRange formula name band count =>
    s!"Band {band} referenced by '{name}' is out of range (input has {count} band(s)) " ++
      s!"in expression '{formula}'"
  | .evenWindow formula name width height =>
    s!"Neighborhood '{name}' has size {width}x{height}; both sides must be odd and positive " ++
      s!"(expression '{formula}')"
  | .malformed text position reason =>
    s!"Syntax error in '{text}' at position {position}: {reason.text}"
  | .shapeMismatch formula operation left right =>
    s!"Shape mismatch in '{formula}': operator '{operation.name}' got {left.text} and {right.text}"
  | .dimensionality formula operation expected found =>
    s!"Dimensionality error in '{formula}' ({operation.name}): " ++
      s!"expected {expected.text}, found {found.text}"
  | .cancelled => "Band math pass cancelled"
  | .raster e => e.message

/-- The failure of a formula whose text was not at hand when it arose. -/
def inFormula (text : String) : Failure → Failure
  | .unknownVariables _ names => .unknownVariables text names
  | .bandOutOfRange _ name band count => .bandOutOfRange text name band count
  | .evenWindow _ name width height => .evenWindow text name width height
  | .malformed _ position reason => .malformed text position reason
  | .shapeMismatch _ operation left right => .shapeMismatch text operation left right
  | .dimensionality _ operation expected found => .dimensionality text operation expected found
  | f => f

/-- The failure of a text that is no formula. -/
def ofSyntaxError (text : String) (e : Expr.SyntaxError) : Failure :=
  .malformed text e.position (.formula e.cause)

/-- The whole number of a sample cut off toward zero, between zero and `2^64 - 1`. -/
def bandNumber (index : Float) : Nat :=
  (Number.truncateInto 0 (UInt64.size - 1) index).toNat

/-- The failure of a formula that has no value under placeholders. -/
def ofEvalError (text : String) : EvalError → Failure
  | .shapeMismatch operation left right => .shapeMismatch text operation left right
  | .dimensionality operation expected found => .dimensionality text operation expected found
  | .indexOutOfRange operation index length =>
    .bandOutOfRange text operation.name (bandNumber index) length
  | .unboundSlot slot => .configuration (.unboundSlot slot)

end Failure

end MapAlgebra
