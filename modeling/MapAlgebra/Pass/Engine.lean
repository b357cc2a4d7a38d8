import MapAlgebra.Pass.Buffer
import MapAlgebra.Pass.Diagnostics
import MapAlgebra.Pass.Plan

/-!
# Evaluation of a region

The cells of a region are visited row by row. At each one the slots are renewed, every formula is
evaluated, and its components are clamped to the range of its output and written to its buffer. A
formula without a value at a cell is counted, and what it writes there is no number.
-/

namespace MapAlgebra

/-- What a worker keeps while it goes from cell to cell. -/
structure Context where
  /-- The values of the slots. -/
  slots : Array Value
  /-- The windows read last. -/
  cache : Cache
  /-- What has been counted for each formula. -/
  diagnostics : List Diagnostics

namespace Context

/-- A worker that has not visited a cell yet. -/
def fresh (plan : Plan) : Context :=
  ⟨plan.template, .empty, plan.tasks.map fun _ => .none⟩

/-! ### Renewing slots -/

/-- The value of a feed at a cell, and the cache after reading it. -/
def readFeed (cache : Cache) (row col : Nat) : Feed → Value × Cache
  | .pixel r bands => (.row (r.readPixel row col bands), cache)
  | .band r band => (.scalar (r.sample band row col), cache)
  | .window r key =>
    let (samples, cache) := cache.get r key row col
    (.matrix (.filled key.window.height key.window.width samples Number.nan), cache)
  | .physicalX t => (.scalar (t.center col row).1, cache)
  | .physicalY t => (.scalar (t.center col row).2, cache)
  | .indexX => (.scalar (Float.ofNat col), cache)
  | .indexY => (.scalar (Float.ofNat row), cache)

/-- Renew one slot. -/
def renew (row col : Nat) (state : Array Value × Cache) (feed : Nat × Feed) : Array Value × Cache :=
  let (v, cache) := readFeed state.2 row col feed.2
  (state.1.setIfInBounds feed.1 v, cache)

/-- Renew all slots that change from cell to cell. -/
def moveTo (ctx : Context) (plan : Plan) (row col : Nat) : Context :=
  let (slots, cache) := plan.feeds.foldl (renew row col) (ctx.slots, ctx.cache)
  { ctx with slots, cache }

end Context

/-! ### Evaluating formulas -/

/-- The components that a formula gives at a cell, if it has a value with one for each band. -/
def Task.components? (task : Task) (slots : Array Value) : Option (List Float) :=
  match task.program.evaluate slots with
  | .error _ => none
  | .ok v => v.asRow?.filter (·.length = task.output.bands)

/-- The samples that a formula writes at a cell, and what has to be counted for them. -/
def Task.samples (task : Task) (slots : Array Value) : List Float × Diagnostics :=
  match task.components? slots with
  | some xs =>
    let clamped := xs.map task.output.pixelType.clamp
    (clamped.map (·.1), .sum (clamped.map (·.2)))
  | none =>
    (List.replicate task.output.bands Number.nan, { Diagnostics.none with runtimeErrors := 1 })

/-- What a worker has and has written so far. -/
structure Progress where
  /-- What the worker keeps. -/
  context : Context
  /-- The buffer of each formula. -/
  buffers : List Buffer

namespace Progress

/-- Write what the formulas give at the slots' values to a cell of the region, which is at `row` and
`col` in it. -/
def write (p : Progress) (plan : Plan) (row col : Nat) : Progress :=
  let written := plan.tasks.map fun task => task.samples p.context.slots
  { context :=
      { p.context with
        diagnostics := List.zipWith (fun d w => d + w.2) p.context.diagnostics written }
    buffers := List.zipWith (fun b w => b.put row col w.1) p.buffers written }

/-- Visit a cell of a region. -/
def visit (plan : Plan) (region : Region) (p : Progress) (cell : Nat × Nat) : Progress :=
  let (row, col) := region.toGrid cell.1 cell.2
  { p with context := p.context.moveTo plan row col }.write plan cell.1 cell.2

end Progress

namespace Plan

/-- Evaluate all formulas over a region, going on from what a worker has kept. -/
def evaluate (plan : Plan) (region : Region) (ctx : Context) : Progress :=
  region.cells.foldl (Progress.visit plan region)
    ⟨ctx, plan.tasks.map fun task => .blank region task.output.bands⟩

end Plan

end MapAlgebra
