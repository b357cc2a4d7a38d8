import MapAlgebra.Catalog.Basic
import MapAlgebra.Expr.Eval

/-!
# Compiled formulas

A formula is compiled once: its names are resolved, and it is tried on placeholders, which fixes the
shape of its values before any cell is read. It must give a scalar or a row, whose components become
the bands of an output.
-/

namespace MapAlgebra

open MapAlgebra.Expr

/-- The raster a formula writes. -/
structure OutputSpec where
  /-- The number of bands. -/
  bands : Nat
  /-- The type of its samples. -/
  pixelType : PixelType
  deriving DecidableEq, Repr

/-- A formula bound to the slots of a catalog. -/
structure Compiled where
  /-- The text of the formula. -/
  source : String
  /-- The bound formula. -/
  program : Program
  /-- The names the formula uses, in order of first appearance. -/
  names : List String
  /-- The shape of its values. -/
  shape : Shape
  /-- The raster it writes. -/
  output : OutputSpec
  /-- The generation of the catalog it was compiled against. -/
  generation : Nat

/-- Whether a catalog has moved on since a formula was compiled. -/
def Compiled.isStale (e : Compiled) (c : Catalog) : Bool :=
  e.generation ≠ c.generation

namespace Catalog

/-- What is known about some names: the slots of those that lead to a variable, and those that are
unknown. -/
structure Resolution where
  /-- The slot of each name that has one. -/
  slots : List (String × Nat)
  /-- The names that are unknown. -/
  unknown : List String

/-- Resolve names in order, gathering the unknown ones; any other failure ends the search. The
catalog keeps the windows made on the way. -/
def resolveAll (c : Catalog) : List String → Except Failure Resolution × Catalog
  | [] => (.ok ⟨[], []⟩, c)
  | name :: rest =>
    match c.resolve name with
    | .ok (slot, c) =>
      let (result, c) := resolveAll c rest
      (result.map fun r => { r with slots := (name, slot) :: r.slots }, c)
    | .error (.unknownVariables _ names) =>
      let (result, c) := resolveAll c rest
      (result.map fun r => { r with unknown := names ++ r.unknown }, c)
    | .error e => (.error e, c)

/-- The program of a formula under resolved names. -/
def bindResolved (f : Formula) (slots : List (String × Nat)) : Except Failure Program :=
  f.bind fun name =>
    match slots.lookup name with
    | some slot => .ok slot
    | none => .error (.unknownVariables f.source [name])

/-- Try a bound formula on placeholders and settle what it writes. -/
def finish (c : Catalog) (f : Formula) (program : Program) (t : PixelType) :
    Except Failure Compiled :=
  match program.probe c.placeholders with
  | .error e => .error (.ofEvalError f.source e)
  | .ok v =>
    match v.asRow? with
    | none => .error (.dimensionality f.source .output .scalarOrRow (.shape v.shape))
    | some row =>
      .ok ⟨f.source, program, f.identifiers, v.shape, ⟨row.length, t⟩, c.generation⟩

/-- Compile a text to a formula that writes samples of type `t`. Windows it asks for stay in the
catalog even if it is refused. -/
def compile (c : Catalog) (text : String) (t : PixelType) : Except Failure Compiled × Catalog :=
  match Formula.parse text with
  | .error e => (.error (.ofSyntaxError text e), c)
  | .ok f =>
    match c.resolveAll f.identifiers with
    | (.error e, c) => (.error (e.inFormula text), c)
    | (.ok r, c) =>
      if r.unknown.isEmpty then
        (match bindResolved f r.slots with
        | .error e => .error e
        | .ok program => c.finish f program t, c)
      else (.error (.unknownVariables text r.unknown), c)

end Catalog

end MapAlgebra
