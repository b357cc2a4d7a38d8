import MapAlgebra.Pass.Coordinator

/-!
# Sessions

A session holds a catalog, the formulas compiled against it and the parameters of its passes. A pass
evaluates every formula over the inputs or a region of them; formulas that the catalog has moved
past are compiled again first. A request to call off a pass holds for one pass.
-/

namespace MapAlgebra

/-- A catalog, formulas and parameters. -/
structure Session where
  /-- The names formulas may use. -/
  catalog : Catalog
  /-- The compiled formulas, in order. -/
  expressions : List Compiled
  /-- The parameters of passes. -/
  params : Params
  /-- Whether the next pass is called off. -/
  isCancelled : Bool

/-- What a formula gave in a pass. -/
structure ExpressionOutput where
  /-- The text of the formula. -/
  source : String
  /-- Its output. -/
  raster : Raster
  /-- What was counted while the output was written. -/
  diagnostics : Diagnostics

namespace Session

/-- A session without inputs and formulas. -/
def initial (params : Params) : Session := ⟨.initial, [], params, false⟩

/-- Register an input; the answer is its place among the inputs. -/
def register (s : Session) (source : Source) (alias? : Option String) :
    Except Failure (Nat × Session) := do
  let (image, catalog) ← s.catalog.register source alias?
  return (image, { s with catalog })

/-- Declare a number. -/
def declareConstant (s : Session) (name : String) (x : Float) : Except Failure Session := do
  return { s with catalog := ← s.catalog.declareConstant name x }

/-- Declare a matrix. -/
def declareMatrix (s : Session) (name : String) (rows cols : Nat) (values : List Float) :
    Except Failure Session := do
  return { s with catalog := ← s.catalog.declareMatrix name rows cols values }

/-- Declare the matrix a text spells. -/
def declareMatrixText (s : Session) (name text : String) : Except Failure Session := do
  return { s with catalog := ← s.catalog.declareMatrixText name text }

/-- Compile a formula that writes samples of a type. The answer is its place among the formulas; a
formula that is refused leaves them as they are. -/
def compileTyped (s : Session) (text : String) (t : PixelType) : Except Failure Nat × Session :=
  match s.catalog.compile text t with
  | (.ok e, catalog) =>
    (.ok s.expressions.length, { s with catalog, expressions := s.expressions ++ [e] })
  | (.error e, catalog) => (.error e, { s with catalog })

/-- Compile a formula that writes samples of the type the parameters name. -/
def compile (s : Session) (text : String) : Except Failure Nat × Session :=
  s.compileTyped text s.params.outputType

/-- What each formula writes, in order. -/
def outputSpecs (s : Session) : List OutputSpec := s.expressions.map (·.output)

/-- Ask for the next pass to be called off. -/
def cancel (s : Session) : Session := { s with isCancelled := true }

/-! ### Passes -/

/-- Compile again the formulas that a catalog has moved past, in order; the first that is refused
ends it, and the formulas from there on stay as they are. -/
def recompile (c : Catalog) : List Compiled → Except Failure Unit × Catalog × List Compiled
  | [] => (.ok (), c, [])
  | e :: rest =>
    if e.isStale c then
      match c.compile e.source e.output.pixelType with
      | (.ok e, c) =>
        let (result, c, rest) := recompile c rest
        (result, c, e :: rest)
      | (.error failure, c) => (.error failure, c, e :: rest)
    else
      let (result, c, rest) := recompile c rest
      (result, c, e :: rest)

/-- Compile again the formulas that the catalog has moved past. -/
def recompileStale (s : Session) : Except Failure Unit × Session :=
  let (result, catalog, expressions) := recompile s.catalog s.expressions
  (result, { s with catalog, expressions })

/-- The first input, which a pass takes its extent and its place from. -/
def firstInput (s : Session) : Except Failure Raster :=
  match s.catalog.inputs with
  | [] => .error (.configuration .noInput)
  | first :: _ => .ok first.raster

/-- What must hold before a pass over a region begins: there is an input and a formula, and the
region lies inside the input. The answer is the transform of the input. -/
def checkPass (s : Session) (region : Region) : Except Failure (Transform Float) := do
  let first ← s.firstInput
  if s.expressions.isEmpty then throw (.configuration .noExpression)
  match region.checkWithin first.rows first.cols with
  | .ok () => return first.transform
  | .error e => throw (.raster e)

/-- The outputs of a pass, each with the text of its formula. -/
def outputsOf (expressions : List Compiled) (out : PassOutput) : List ExpressionOutput :=
  (expressions.zip (out.rasters.zip out.diagnostics)).map fun (e, raster, diagnostics) =>
    ⟨e.source, raster, diagnostics⟩

/-- Run the compiled formulas over a region. A request to call off a pass is spent by it. -/
def runCompiled (s : Session) (cores : Nat) (region : Region) (transform : Transform Float) :
    Except Failure (List ExpressionOutput) × Session :=
  match Plan.ofCompiled s.catalog s.expressions with
  | .error e => (.error (.raster e), s)
  | .ok plan =>
    let (result, _) :=
      (Coordinator.ofParams s.params s.isCancelled).run cores plan region transform
    (result.map (outputsOf s.expressions), { s with isCancelled := false })

/-- Evaluate every formula over a region of the inputs, on a machine of so many cores. -/
def runRegion (s : Session) (cores : Nat) (region : Region) :
    Except Failure (List ExpressionOutput) × Session :=
  match s.checkPass region with
  | .error e => (.error e, s)
  | .ok transform =>
    match s.recompileStale with
    | (.error e, s) => (.error e, s)
    | (.ok (), s) => s.runCompiled cores region transform

/-- Evaluate every formula over the whole of the inputs, on a machine of so many cores. -/
def run (s : Session) (cores : Nat) : Except Failure (List ExpressionOutput) × Session :=
  match s.firstInput with
  | .error e => (.error e, s)
  | .ok first => s.runRegion cores (.full first.rows first.cols)

/-! ### One pass over given rasters -/

/-- The name of the evaluation of formulas as an algorithm. -/
def algorithmName : String := "BandMathX"

/-- What the evaluation of formulas does. -/
def algorithmDescription : String :=
  "Evaluate per-pixel expressions over multi-band rasters, with neighborhoods and matrix operations"

/-- Register rasters in order. -/
def registerAll (s : Session) : List Raster → Except Failure Session
  | [] => .ok s
  | r :: rest => do
    let (_, s) ← s.register ⟨r, true⟩ none
    registerAll s rest

/-- Compile formulas in order. -/
def compileAll (s : Session) : List String → Except Failure Session
  | [] => .ok s
  | text :: rest =>
    match s.compile text with
    | (.ok _, s) => compileAll s rest
    | (.error e, _) => .error e

/-- Evaluate formulas over rasters, which are the inputs in order, on a machine of so many cores. -/
def execute (cores : Nat) (params : Params) (rasters : List Raster) (formulas : List String) :
    Except Failure (List ExpressionOutput) := do
  let s ← (initial params).registerAll rasters
  let s ← s.compileAll formulas
  (s.run cores).1

end Session

end MapAlgebra
