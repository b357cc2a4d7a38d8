import MapAlgebra.Compiled
import MapAlgebra.Pass.Cache

/-!
# Plans

What a pass needs to know: the formulas and what they write, a value for every slot, and how to
renew the slots that change from cell to cell and that some formula reads. Statistics of bands are
worked out once, when the plan is made.
-/

namespace MapAlgebra

/-- Where the value of a slot comes from at a cell. -/
inductive Feed where
  /-- All samples of a raster at the cell. -/
  | pixel (r : Raster) (bands : Nat)
  /-- The sample of a band at the cell. -/
  | band (r : Raster) (band : Nat)
  /-- The samples of a window around the cell. -/
  | window (r : Raster) (key : WindowKey)
  /-- The first coordinate of the centre of the cell. -/
  | physicalX (t : Transform Float)
  /-- The second coordinate of the centre of the cell. -/
  | physicalY (t : Transform Float)
  /-- The column of the cell. -/
  | indexX
  /-- The row of the cell. -/
  | indexY

/-- A formula of a pass and what it writes. -/
structure Task where
  /-- The bound formula. -/
  program : Expr.Program
  /-- The raster it writes. -/
  output : OutputSpec

/-- What a pass needs to know. -/
structure Plan where
  /-- The formulas. -/
  tasks : List Task
  /-- A value for every slot, final where it does not change from cell to cell. -/
  template : Array Value
  /-- The slots that change from cell to cell. -/
  feeds : List (Nat × Feed)

namespace Plan

/-- How a slot takes part in a pass. -/
inductive Role where
  /-- Its value is that of the template. -/
  | fixed
  /-- Its value is this one throughout. -/
  | settled (v : Value)
  /-- Its value is renewed at every cell. -/
  | renewed (f : Feed)

/-- The role of a variable of the given kind, its inputs being those listed. -/
def roleOf (inputs : List Source) (k : Kind) : Except RasterError Role :=
  let feed (image : Nat) (f : Raster → Feed) : Except RasterError Role :=
    match inputs[image]? with
    | some s => .ok (.renewed (f s.raster))
    | none => .ok .fixed
  match k with
  | .pixel image bands => feed image (.pixel · bands)
  | .band image band => feed image (.band · band)
  | .window key => feed key.image (.window · key)
  | .physicalX image => feed image fun r => .physicalX r.transform
  | .physicalY image => feed image fun r => .physicalY r.transform
  | .indexX => .ok (.renewed .indexX)
  | .indexY => .ok (.renewed .indexY)
  | .statistic image band s =>
    match inputs[image]? with
    | some source =>
      match source.statistics band with
      | .ok statistics => .ok (.settled (.scalar (s.value statistics)))
      | .error e => .error e
    | none => .ok .fixed
  | .constant _ | .matrix _ => .ok .fixed

/-- Add a slot to a plan. -/
def addSlot (c : Catalog) (plan : Plan) (slot : Nat) : Except RasterError Plan :=
  match c.slots[slot]? with
  | none => .ok plan
  | some v =>
    match roleOf c.inputs v.kind with
    | .error e => .error e
    | .ok .fixed => .ok plan
    | .ok (.settled x) => .ok { plan with template := plan.template.setIfInBounds slot x }
    | .ok (.renewed f) => .ok { plan with feeds := plan.feeds ++ [(slot, f)] }

/-- The slots of a catalog that some formula reads, in rising order. -/
def referenced (c : Catalog) (expressions : List Compiled) : List Nat :=
  (List.range c.slots.size).filter fun slot =>
    expressions.any fun e => e.program.tree.references.contains slot

/-- The plan of a pass of formulas compiled against a catalog. -/
def ofCompiled (c : Catalog) (expressions : List Compiled) : Except RasterError Plan :=
  let tasks := expressions.map fun e => ⟨e.program, e.output⟩
  (referenced c expressions).foldlM (addSlot c) ⟨tasks, c.placeholders, []⟩

end Plan

end MapAlgebra
