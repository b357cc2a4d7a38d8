import MapAlgebra.Function.Reduction
import MapAlgebra.Number.Round
import MapAlgebra.Value.Arithmetic

/-!
# Calls

What a function makes of its arguments. A call with a wrong number of arguments is a fault, and so
is an argument of a shape the function does not take.
-/

namespace MapAlgebra

/-- `1`, `-1` or, for a zero or what is no number, the sample itself. -/
def signum (x : Float) : Float :=
  if 0.0 < x then 1.0 else if x < 0.0 then -1.0 else x

/-- The value of an elementary function. -/
def Elementary.eval : Elementary → Float → Float
  | .sin => Float.sin
  | .cos => Float.cos
  | .tan => Float.tan
  | .asin => Float.asin
  | .acos => Float.acos
  | .atan => Float.atan
  | .sinh => Float.sinh
  | .cosh => Float.cosh
  | .tanh => Float.tanh
  | .exp => Float.exp
  | .log => Float.log
  | .log10 => Float.log10
  | .log2 => Float.log2
  | .sqrt => Float.sqrt
  | .abs => Float.abs
  | .floor => Float.floor
  | .ceil => Float.ceil
  | .round => Number.nearestWhole
  | .sign => signum

/-- The sum of samples from left to right, starting from the negative zero. -/
def sumSamples (xs : List Float) : Float :=
  Scalar.sumFrom (-0.0) xs

/-- The Euclidean norm of samples. -/
def norm (xs : List Float) : Float :=
  (sumSamples (xs.map fun x => x * x)).sqrt

/-! ### Picking bands -/

/-- The component that `index`, rounded to the nearest whole number, picks from one on. -/
def pick (components : List Float) (index : Float) : Except EvalError Float :=
  let fault := EvalError.indexOutOfRange (.function .bands) index components.length
  match (Number.truncateInto 0 (components.length + 1) (Number.nearestWhole index)).toNat with
  | 0 => .error fault
  | i + 1 =>
    match components[i]? with
    | some x => .ok x
    | none => .error fault

/-- The components of a row that the components of a second row number. -/
def selectBands (vector indices : Value) : Except EvalError Value := do
  let components ← vector.expectRow (.function .bands) .row
  let picks ← indices.expectRow (.function .bands) .indexRow
  return .row (← picks.mapM (pick components))

/-- The row of the components of all arguments. -/
def concatenate (args : List Value) : Except EvalError Value := do
  let rows ← args.mapM (·.expectRow (.function .cat) .scalarsOrRows)
  return .row rows.flatten

/-! ### Correlation and convolution -/

/-- The correlation of pairs of numbers: the sum of products of deviations over the root of the
product of the sums of squared deviations. -/
def correlationOfPairs (pairs : List (Float × Float)) : Float :=
  let count := Float.ofNat pairs.length
  let meanX := sumSamples (pairs.map (·.1)) / count
  let meanY := sumSamples (pairs.map (·.2)) / count
  let products := pairs.map fun p => (p.1 - meanX) * (p.2 - meanY)
  let squaresX := pairs.map fun p => (p.1 - meanX) * (p.1 - meanX)
  let squaresY := pairs.map fun p => (p.2 - meanY) * (p.2 - meanY)
  let sum := Scalar.sumFrom (0.0 : Float)
  quotient (sum products) (sum squaresX * sum squaresY).sqrt

/-- The correlation of two values of one shape over the places where both hold a number. -/
def correlate (a b : Value) : Except EvalError Value :=
  if a.shape = b.shape then
    match (a.cells.zip b.cells).filter fun p => !p.1.isNaN && !p.2.isNaN with
    | [] => .ok (.scalar Number.nan)
    | p :: pairs => .ok (.scalar (correlationOfPairs (p :: pairs)))
  else .error (.shapeMismatch (.function .corr) a.shape b.shape)

/-- The sum of the cells of a window, each weighted by the cell of the kernel in the same place. -/
def weightedSum (kernel window : Value) : Except EvalError Float :=
  if window.cells.length = kernel.cells.length then
    .ok (sumSamples (List.zipWith (· * ·) kernel.cells window.cells))
  else
    .error (.dimensionality (.function .conv) (.kernelElements kernel.shape) (.window window.shape))

/-- The weighted sum of each window, as a row. -/
def convolve (kernel : Value) (windows : List Value) : Except EvalError Value := do
  return .row (← windows.mapM (weightedSum kernel))

/-! ### All functions -/

/-- Whether a reduction of scalars alone combines them into one scalar. -/
def Reduction.combinesScalars : Reduction → Bool
  | .min | .max => true
  | _ => false

/-- What a reduction makes of its arguments: one component for each, but one scalar when `min` or
`max` is given scalars alone. -/
def Reduction.apply (r : Reduction) (args : List Value) : Value :=
  if r.combinesScalars && args.all (·.isScalar) then .scalar (r.eval (args.flatMap (·.cells)))
  else .row (args.map fun a => r.eval a.cells)

/-- The value of a function at given arguments. -/
def Function.apply (f : Function) (args : List Value) : Except EvalError Value :=
  let required := Value.expectScalar (.function f)
  match f, args with
  | .scalar g, [a] => do return .scalar (g.eval (← required a))
  | .cellwise g, [a] => .ok (a.map g.eval)
  | .reduce r, a :: rest => .ok (r.apply (a :: rest))
  | .atan2, [a, b] => do return .scalar ((← required a).atan2 (← required b))
  | .ndvi, [a, b] => do
    let red ← required a
    let infrared ← required b
    return .scalar (quotient (infrared - red) (infrared + red))
  | .bands, [a, b] => selectBands a b
  | .cat, a :: rest => concatenate (a :: rest)
  | .vmin, [a] => .ok (.scalar (least a.cells))
  | .vmax, [a] => .ok (.scalar (greatest a.cells))
  | .vnorm, [a] => .ok (.scalar (norm a.cells))
  | .vect2scal, [a] => do return .scalar (← required a)
  | .corr, [a, b] => correlate a b
  | .conv, kernel :: window :: rest => convolve kernel (window :: rest)
  | f, args => .error (.dimensionality (.function f) (.arguments f.arity) (.arguments args.length))

end MapAlgebra
