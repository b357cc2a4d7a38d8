import MapAlgebra.Proofs.Pass.Buffer
import MapAlgebra.Proofs.Pass.Diagnostics
import MapAlgebra.Proofs.Pass.Slots
import MapAlgebra.Proofs.Region.Cells

/-!
# A region cell by cell

A worker goes through the cells of a region and carries its slots, its windows and its counts from
one to the next. Main statement: **`Plan.evaluate_written`** says that what it has written in the
end is, for each formula, what the formula gives on the slot values of each cell worked out from
scratch, and what it has counted is the sum over the cells.

The invariant is `Progress.Written`, a visit of a cell preserves it (`Progress.Written.visit`), and
the run is an induction over the cells.
-/

namespace MapAlgebra

open Plan

/-- What all variables of a catalog are worth at a cell of a region. -/
def Catalog.slotsIn (c : Catalog) (region : Region) (cell : Nat × Nat) : Array Value :=
  c.slotsAt (region.rowOffset + cell.1) (region.colOffset + cell.2)

/-- What a compiled formula asks of a pass. -/
def Compiled.task (e : Compiled) : Task := ⟨e.program, e.output⟩

/-- A formula gives one sample for each band, whatever the slot values. -/
theorem Task.length_samples (task : Task) (slots : Array Value) :
    (task.samples slots).1.length = task.output.bands := by
  unfold samples
  split
  · next xs h =>
    have hxs : xs.length = task.output.bands := by
      unfold components? at h
      split at h
      · cases h
      · have := (Option.filter_eq_some_iff.1 h).2
        simpa using this
    rw [List.length_map, List.length_map, hxs]
  · exact List.length_replicate

/-- What a formula gives depends on the slots it reads. -/
theorem Task.samples_congr (task : Task) {s s' : Array Value}
    (h : Expr.AgreeOn task.program.tree.references s s') : task.samples s = task.samples s' := by
  unfold samples components?
  rw [task.program.evaluate_congr h]

/-- Every cell of a region lies in the grids of the inputs. -/
def Region.InGrids (region : Region) (inputs : List Source) : Prop :=
  ∀ cell ∈ region.gridCells, MapAlgebra.InGrids inputs cell.1 cell.2

theorem Region.inGrids_of_checkWithin {region : Region} {inputs : List Source}
    (h : ∀ s ∈ inputs, region.checkWithin s.raster.rows s.raster.cols = .ok ()) :
    region.InGrids inputs := by
  intro cell hcell s hs
  have hwithin := checkWithin_eq_ok_iff.1 (h s hs)
  have hmem := mem_gridCells.1 hcell
  omega

/-! ### Visits -/

namespace Progress

/-- What holds of a worker that has visited the cells `done` of a region, beginning afresh: it is
sound, its buffers hold at these cells what the formulas give on their slot values worked out from
scratch, and its counts are the sums over these cells. -/
structure Written (c : Catalog) (plan : Plan) (region : Region) (done : List (Nat × Nat))
    (p : Progress) : Prop where
  /-- The worker is sound. -/
  sound : p.context.Sound c plan
  /-- There is a buffer for each formula, and it holds what the formula gives. -/
  buffers : List.Forall₂
    (fun (b : Buffer) (task : Task) => b.Holds region task.output.bands
      (fun cell => (task.samples (c.slotsIn region cell)).1) done)
    p.buffers plan.tasks
  /-- There are counts for each formula, and they are the sums of what it gives. -/
  diagnostics : p.context.diagnostics = plan.tasks.map fun task =>
    .sum (done.map fun cell => (task.samples (c.slotsIn region cell)).2)

variable {c : Catalog} {es : List Compiled} {plan : Plan} {region : Region}
  {done : List (Nat × Nat)} {cell : Nat × Nat} {p : Progress}

/-- The buffer of a formula. -/
theorem Written.exists_buffer (h : Written c plan region done p) {i : Nat} {task : Task}
    (htask : plan.tasks[i]? = some task) :
    ∃ b : Buffer, p.buffers[i]? = some b ∧ b.Holds region task.output.bands
      (fun cell => (task.samples (c.slotsIn region cell)).1) done :=
  exists_getElem?_of_forall₂ h.buffers htask

/-- A worker that has not visited a cell. -/
theorem written_nil (hplan : plan.Renews c (referenced c es)) : Written c plan region []
    ⟨.fresh plan, plan.tasks.map fun task => .blank region task.output.bands⟩ where
  sound := Context.sound_fresh hplan
  buffers := List.forall₂_map_left_iff.2 (List.forall₂_same.2 fun _ _ => Buffer.holds_blank _ _ _)
  diagnostics := rfl

/-- Buffers that are written one by one. -/
theorem forall₂_zipWith {R R' : Buffer → Task → Prop} {put : Buffer → Task → Buffer}
    (hput : ∀ b task, R b task → R' (put b task) task) {bs : List Buffer} {tasks : List Task}
    (h : List.Forall₂ R bs tasks) : List.Forall₂ R' (List.zipWith put bs tasks) tasks := by
  induction h with
  | nil => exact .nil
  | cons hr _ ih => exact .cons (hput _ _ hr) ih

/-- A visit of one more cell of the region. -/
theorem Written.visit (h : Written c plan region done p)
    (hplan : plan.Renews c (referenced c es)) (htasks : plan.tasks = es.map Compiled.task)
    (hregion : region.InGrids c.inputs) (hdone : ∀ cell ∈ done, cell ∈ region.cells)
    (hcell : cell ∈ region.cells) :
    Written c plan region (done ++ [cell]) (p.visit plan region cell) := by
  have hgrid : InGrids c.inputs (region.rowOffset + cell.1) (region.colOffset + cell.2) :=
    hregion _ (Region.toGrid_mem_gridCells hcell)
  let moved := p.context.moveTo plan (region.rowOffset + cell.1) (region.colOffset + cell.2)
  have hsamples : plan.tasks.map (fun task => task.samples moved.slots) =
      plan.tasks.map fun task => task.samples (c.slotsIn region cell) := by
    refine List.map_congr_left fun task htask => ?_
    rw [htasks] at htask
    obtain ⟨e, he, rfl⟩ := List.mem_map.1 htask
    exact Task.samples_congr _ (Context.agreeOn_moveTo hplan h.sound hgrid he)
  refine ⟨?_, ?_, ?_⟩
  · -- counting touches neither slots nor windows
    have hmoved : moved.Sound c plan := Context.sound_moveTo hplan h.sound hgrid
    exact ⟨hmoved.size_slots, hmoved.kept, hmoved.cache⟩
  · show List.Forall₂ _ (List.zipWith _ p.buffers (plan.tasks.map _)) plan.tasks
    rw [hsamples, List.zipWith_map_right]
    refine forall₂_zipWith (fun b task hb => ?_) h.buffers
    exact hb.put (fun cell' hmem => Region.mem_cells.1 (hdone cell' hmem))
      (Region.mem_cells.1 hcell) (task.length_samples _)
  · show List.zipWith _ p.context.diagnostics (plan.tasks.map _) = _
    rw [hsamples, h.diagnostics, List.zipWith_map_left, List.zipWith_map_right, List.zipWith_self]
    refine List.map_congr_left fun task _ => ?_
    rw [List.map_append, List.map_singleton, Diagnostics.sum_concat]

/-- Visits of some more cells of the region, one after the other. -/
theorem Written.foldl_visit (hplan : plan.Renews c (referenced c es))
    (htasks : plan.tasks = es.map Compiled.task) (hregion : region.InGrids c.inputs)
    {cells : List (Nat × Nat)} (h : Written c plan region done p)
    (hcells : ∀ cell ∈ done ++ cells, cell ∈ region.cells) :
    Written c plan region (done ++ cells) (cells.foldl (Progress.visit plan region) p) := by
  induction cells generalizing done p with
  | nil => rwa [List.append_nil]
  | cons cell cells ih =>
    have hvisit := h.visit hplan htasks hregion
      (fun cell' hmem => hcells cell' (List.mem_append_left _ hmem))
      (hcells cell (List.mem_append_right _ List.mem_cons_self))
    rw [List.append_cons] at hcells ⊢
    exact ih hvisit hcells

end Progress

/-- **Regions**: a worker that begins afresh and goes through a region of the grid writes what the
formulas give on the slot values of each cell worked out from scratch, and counts accordingly. -/
theorem Plan.evaluate_written {c : Catalog} {es : List Compiled} {plan : Plan} {region : Region}
    (hplan : ofCompiled c es = .ok plan) (hregion : region.InGrids c.inputs) :
    (plan.evaluate region (.fresh plan)).Written c plan region region.cells := by
  obtain ⟨hrenews, htasks⟩ := renews_of_ofCompiled hplan
  have hstart : Progress.Written c plan region [] _ := Progress.written_nil hrenews
  exact hstart.foldl_visit hrenews htasks hregion fun _ h => h

end MapAlgebra
