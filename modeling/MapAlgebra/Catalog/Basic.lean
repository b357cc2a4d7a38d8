import MapAlgebra.Catalog.MatrixText
import MapAlgebra.Catalog.Name
import MapAlgebra.Text.Name

/-!
# The catalog of variables

All names a formula may use. A variable lives in a slot that it never leaves; several names may lead
to one slot. Registering an input makes its variables, under its positional root and its alias; a
window is made when a name asks for it first. A registration or declaration that is refused leaves
the catalog as it was, and one that succeeds begins a new generation.

The sides of windows and of declared matrices have no bound (`Catalog.declareMatrix`), and there is
always room for the values that formulas are tried on (`Catalog.placeholders`). A machine of 64 bits
stops instead when a window takes more than `2 ^ 63 - 1` bytes, eight for each cell: no formula is
compiled any more once a name has asked for such a window, even if the formula with that name was
refused.
-/

namespace MapAlgebra

/-- The names a formula may use, and what they stand for. -/
structure Catalog where
  /-- The registered inputs, in order. -/
  inputs : List Source
  /-- The variables, by slot. -/
  slots : Array Variable
  /-- The slot of each name. -/
  names : List (String × Nat)
  /-- The input of each root. -/
  roots : List (String × Nat)
  /-- The slot of each window that has been asked for. -/
  windows : List (WindowKey × Nat)
  /-- How many registrations and declarations have succeeded. -/
  generation : Nat

namespace Catalog

/-- Add a variable in a new slot, under its name. -/
def push (c : Catalog) (name : String) (kind : Kind) : Nat × Catalog :=
  (c.slots.size,
    { c with
      slots := c.slots.push ⟨name, kind⟩
      names := (name, c.slots.size) :: c.names })

/-- The catalog that knows the column and the row of a cell and nothing else. -/
def initial : Catalog :=
  let none : Catalog := ⟨[], #[], [], [], [], 0⟩
  ((none.push "idxX" .indexX).2.push "idxY" .indexY).2

/-- Begin a new generation. -/
def advance (c : Catalog) : Catalog := { c with generation := c.generation + 1 }

/-- Whether a name leads to a variable. -/
def hasName (c : Catalog) (name : String) : Bool := (c.names.lookup name).isSome

/-- Whether a name is the root of an input. -/
def hasRoot (c : Catalog) (name : String) : Bool := (c.roots.lookup name).isSome

/-- A new name must be well formed, free, not reserved and not like a positional one. -/
def checkAvailable (c : Catalog) (name : String) : Except Failure Unit :=
  if !Text.isName name then .error (.configuration (.invalidName name))
  else if c.hasName name || c.hasRoot name || reservedNames.contains name
      || isPositionalName name then
    .error (.nameCollision name)
  else .ok ()

/-! ### Inputs -/

/-- The name that keeps a new input from having a root, if there is one: the root itself, or one of
the names it would make. -/
def collision? (c : Catalog) (entries : List (String × Kind)) (root : String) : Option String :=
  if c.hasRoot root then some root
  else (entries.map fun e => root ++ e.1).find? c.hasName

/-- Add the variables of an input, each under every root; the first root is the positional one. -/
def addEntries (c : Catalog) (root : String) (aliases : List String) :
    List (String × Kind) → Catalog
  | [] => c
  | (ending, kind) :: rest =>
    let (slot, c) := c.push (root ++ ending) kind
    let further := aliases.map fun a => (a ++ ending, slot)
    addEntries { c with names := further ++ c.names } root aliases rest

/-- An input must have a band, and the extent of the inputs before it. -/
def checkInput (c : Catalog) (r : Raster) : Except Failure Unit :=
  if r.bands = 0 then .error (.configuration .noBands)
  else
    match c.inputs with
    | [] => .ok ()
    | first :: _ =>
      let f := first.raster
      if f.rows = r.rows ∧ f.cols = r.cols then .ok ()
      else .error (.raster (.sizeMismatch f.rows f.cols r.rows r.cols))

/-- The aliases of a new input: none if its alias is its positional root. -/
def checkAlias (c : Catalog) (root : String) (alias? : Option String) :
    Except Failure (List String) :=
  match alias? with
  | none => .ok []
  | some name =>
    if name = root then .ok []
    else
      match c.checkAvailable name with
      | .ok () => .ok [name]
      | .error e => .error e

/-- Register an input, under an alias if one is given. The answer is its place among the inputs. -/
def register (c : Catalog) (source : Source) (alias? : Option String) :
    Except Failure (Nat × Catalog) := do
  c.checkInput source.raster
  let image := c.inputs.length
  let root := positionalRoot image
  let aliases ← c.checkAlias root alias?
  let entries := endings image source.raster.bands
  match (root :: aliases).findSome? (c.collision? entries) with
  | some name => throw (.nameCollision name)
  | none =>
    let c := c.addEntries root aliases entries
    return (image,
      advance { c with
        roots := (root :: aliases).map (·, image) ++ c.roots
        inputs := c.inputs ++ [source] })

/-! ### Declarations -/

/-- Declare a number under a new name. -/
def declareConstant (c : Catalog) (name : String) (x : Float) : Except Failure Catalog := do
  c.checkAvailable name
  return (c.push name (.constant x)).2.advance

/-- Declare a matrix under a new name; it must have a cell, and as many values as its shape says. -/
def declareMatrix (c : Catalog) (name : String) (rows cols : Nat) (values : List Float) :
    Except Failure Catalog := do
  c.checkAvailable name
  let fault := Failure.dimensionality name .declaration (.matrixValues ⟨rows, cols⟩)
    (.values values.length)
  if rows = 0 || cols = 0 then throw fault
  match Matrix.ofCells? rows cols values with
  | some m => return (c.push name (.matrix m)).2.advance
  | none => throw fault

/-- Declare the matrix a text spells under a new name. -/
def declareMatrixText (c : Catalog) (name text : String) : Except Failure Catalog := do
  let m ← MatrixText.parse text
  c.declareMatrix name m.rows m.cols m.values

/-! ### Looking up names -/

/-- A band number of an input, from one on, as a band from zero on; `name` is the name it was read
off. -/
def checkBand (c : Catalog) (name : String) (image band : Nat) : Except Failure Nat :=
  let count := (c.inputs[image]?.map (·.raster.bands)).getD 0
  if band = 0 || count < band then .error (.bandOutOfRange "" name band count) else .ok (band - 1)

/-- The slot of a window, made if it is not there yet, and now known under `name` too. -/
def addWindow (c : Catalog) (name : String) (key : WindowKey) : Nat × Catalog :=
  let (slot, c) :=
    match c.windows.lookup key with
    | some slot => (slot, c)
    | none =>
      let (slot, c) := c.push (windowName key) (.window key)
      (slot, { c with windows := (key, slot) :: c.windows })
  (slot, { c with names := (name, slot) :: c.names })

/-- The slot of the window a name asks for, if it starts with the root of an input. -/
def resolveWindow? (c : Catalog) (name : String) : Option (Except Failure (Nat × Catalog)) := do
  let n ← readWindow? name
  let image ← c.roots.lookup n.root
  return do
    let band ← c.checkBand name image n.band
    match Window.ofSides n.width n.height with
    | .ok window => return c.addWindow name ⟨image, band, window⟩
    | .error _ => throw (.evenWindow "" name n.width n.height)

/-- Why a name that leads nowhere does so: it spells a band that its input does not have, or it is
unknown. -/
def unresolved (c : Catalog) (name : String) : Failure :=
  let unknown := Failure.unknownVariables "" [name]
  match readStatistic? name with
  | none => unknown
  | some n =>
    match c.roots.lookup n.root with
    | none => unknown
    | some image =>
      match c.checkBand name image n.band with
      | .ok _ => unknown
      | .error e => e

/-- The slot of a name; a window is made when a name asks for it first. -/
def resolve (c : Catalog) (name : String) : Except Failure (Nat × Catalog) :=
  match c.names.lookup name with
  | some slot => .ok (slot, c)
  | none => (c.resolveWindow? name).getD (.error (c.unresolved name))

/-- The variable of a name that is already there. -/
def lookup (c : Catalog) (name : String) : Except Failure Variable :=
  match (c.names.lookup name).bind (c.slots[·]?) with
  | some v => .ok v
  | none => .error (.unknownVariables "" [name])

/-- The values to try formulas on, by slot. -/
def placeholders (c : Catalog) : Array Value :=
  c.slots.map (·.kind.placeholder)

end Catalog

end MapAlgebra
