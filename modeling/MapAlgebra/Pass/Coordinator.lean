import MapAlgebra.Failure
import MapAlgebra.Params.Basic
import MapAlgebra.Pass.Engine
import MapAlgebra.Region.Partition

/-!
# Coordinating a pass

A region is cut into parts, each part is evaluated by a worker of its own, and the buffers are put
together in outputs of the extent of the region. The parts are tiles when a tile size is given, else
one strip for each worker. A pass that is called off before a part is begun yields nothing.
-/

namespace MapAlgebra

/-- How far a pass is. -/
inductive Stage where
  /-- No pass is under way. -/
  | idle
  /-- The region has been cut into parts. -/
  | partitioned
  /-- Parts are being evaluated. -/
  | running
  /-- Buffers are being put together. -/
  | merging
  deriving DecidableEq, Repr

/-- The name of a stage. -/
def Stage.name : Stage → String
  | .idle => "Idle"
  | .partitioned => "Partitioned"
  | .running => "Running"
  | .merging => "Merging"

/-- What runs passes. -/
structure Coordinator where
  /-- How many workers share a pass. -/
  mode : Mode
  /-- The side of the tiles, if a region is cut into tiles. -/
  tileSize? : Option Nat
  /-- How far the pass is. -/
  stage : Stage
  /-- Whether passes are called off. -/
  isCancelled : Bool

/-- The outputs of a pass and what was counted for each. -/
structure PassOutput where
  /-- The output of each formula. -/
  rasters : List Raster
  /-- What was counted for each formula. -/
  diagnostics : List Diagnostics

/-- The outputs of a plan over a region before anything is written. -/
def PassOutput.blank (plan : Plan) (region : Region) (transform : Transform Float) : PassOutput :=
  let shifted := transform.shifted region.colOffset region.rowOffset
  ⟨plan.tasks.map fun task =>
      .output task.output.pixelType task.output.bands region.rows region.cols shifted,
    plan.tasks.map fun _ => .none⟩

/-- Write a list of buffers, each into its output, where they belong in the region. -/
def writeAll (region : Region) : List Raster → List Buffer → Except RasterError (List Raster)
  | r :: rs, b :: bs => do
    let written ← r.write b (b.region.rowOffset - region.rowOffset)
      (b.region.colOffset - region.colOffset)
    return written :: (← writeAll region rs bs)
  | rs, _ => .ok rs

/-- Add what a worker has written to the outputs. -/
def PassOutput.merge (region : Region) (out : PassOutput) (p : Progress) :
    Except RasterError PassOutput := do
  return ⟨← writeAll region out.rasters p.buffers,
    List.zipWith (· + ·) out.diagnostics p.context.diagnostics⟩

namespace Coordinator

/-- A coordinator of passes with given parameters. -/
def ofParams (p : Params) (isCancelled : Bool) : Coordinator :=
  ⟨p.mode, p.tileSize?, .idle, isCancelled⟩

/-- Call off passes until further notice. -/
def cancel (c : Coordinator) : Coordinator := { c with isCancelled := true }

/-- Allow passes again. -/
def reset (c : Coordinator) : Coordinator := { c with isCancelled := false }

/-- The parts of a region for so many workers. -/
def parts (c : Coordinator) (region : Region) (workers : Nat) : List Region :=
  match c.tileSize? with
  | some size => region.tiles size
  | none => region.strips workers

/-- Cut a region into parts. -/
def partition (c : Coordinator) (region : Region) (workers : Nat) : List Region × Coordinator :=
  (c.parts region workers, { c with stage := .partitioned })

/-- The outputs of a plan over a region whose parts are given, `transform` being that of the whole
grid. -/
def runParts (plan : Plan) (region : Region) (transform : Transform Float) (parts : List Region) :
    Except Failure PassOutput :=
  let results := parts.map fun part => plan.evaluate part (.fresh plan)
  match results.foldlM (PassOutput.merge region) (.blank plan region transform) with
  | .ok out => .ok out
  | .error e => .error (.raster e)

/-- Run a plan over a region on a machine of so many cores. A pass that is called off fails as soon
as there is a part to begin. -/
def run (c : Coordinator) (cores : Nat) (plan : Plan) (region : Region)
    (transform : Transform Float) : Except Failure PassOutput × Coordinator :=
  let (parts, c) := c.partition region (c.mode.workers cores)
  let result :=
    if c.isCancelled && !parts.isEmpty then .error .cancelled
    else runParts plan region transform parts
  (result, { c with stage := .idle })

end Coordinator

end MapAlgebra
