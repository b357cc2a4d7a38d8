import MapAlgebra.Params.Document
import MapAlgebra.Raster.PixelType

/-!
# Parameters of a pass

How a pass shares out its work and what type its outputs have unless they ask for another, with the
form these settings take in a document. A missing field has its default and an unknown one is
skipped; a field of the wrong form spoils the whole document.
-/

namespace MapAlgebra

/-- How many workers share a pass. -/
inductive Mode where
  /-- One. -/
  | sequential
  /-- One for each core of the machine. -/
  | parallel
  /-- So many, but at least one. -/
  | parallelWith (workers : Nat)
  deriving DecidableEq, Repr

namespace Mode

/-- The number of workers, if it does not depend on the machine. -/
def workers? : Mode → Option Nat
  | .sequential => some 1
  | .parallel => none
  | .parallelWith workers => some (max workers 1)

/-- The number of workers on a machine of so many cores. -/
def workers (cores : Nat) (mode : Mode) : Nat :=
  mode.workers?.getD cores

/-- The mode a document states. -/
def ofDocument? (d : Document) : Option Mode :=
  match d with
  | .record [("parallel_with", workers)] => workers.size?.map .parallelWith
  | _ =>
    match d.choice? with
    | some "sequential" => some .sequential
    | some "parallel" => some .parallel
    | _ => none

/-- The document that states a mode. -/
def toDocument : Mode → Document
  | .sequential => .text "sequential"
  | .parallel => .text "parallel"
  | .parallelWith workers => .record [("parallel_with", .whole workers)]

end Mode

/-- The parameters of a pass. -/
structure Params where
  /-- The pixel type of outputs that ask for none. -/
  outputType : PixelType
  /-- How many workers share the pass. -/
  mode : Mode
  /-- The side of the tiles to cut the region into, instead of one strip for each worker. -/
  tileSize? : Option Nat
  deriving DecidableEq, Repr

namespace Params

/-- The parameters of an empty document. -/
def standard : Params := ⟨.f64, .parallel, none⟩

/-- What a field states, or its default if it is missing; none if it has the wrong form. -/
def fieldOr {α : Type} (fields : List (String × Document)) (name : String) (default : α)
    (read : Document → Option α) : Option α :=
  match fields.lookup name with
  | none => some default
  | some d => read d

/-- The tile size a document states; nothing asks for strips. -/
def tileSizeOfDocument? : Document → Option (Option Nat)
  | .null => some none
  | d => d.size?.map some

/-- The parameters a document states. -/
def ofDocument? (d : Document) : Option Params := do
  let fields ← d.fields?
  let outputType ← fieldOr fields "output_type" standard.outputType
    fun d => d.choice?.bind PixelType.ofName?
  let mode ← fieldOr fields "mode" standard.mode Mode.ofDocument?
  let tileSize? ← fieldOr fields "tile_size" standard.tileSize? tileSizeOfDocument?
  return { outputType, mode, tileSize? }

/-- The document that states some parameters. -/
def toDocument (p : Params) : Document :=
  .record
    [("output_type", .text p.outputType.name), ("mode", p.mode.toDocument),
      ("tile_size", match p.tileSize? with
        | none => .null
        | some n => .whole n)]

end Params

end MapAlgebra
