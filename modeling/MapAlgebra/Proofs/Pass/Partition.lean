import MapAlgebra.Pass.Coordinator
import MapAlgebra.Proofs.Pass.Interpreter
import MapAlgebra.Proofs.Pass.Output
import MapAlgebra.Proofs.Region.Parts

/-!
# Independence of the partition

A pass cuts its region into parts, has every part evaluated afresh and puts the buffers together.
Main statement: **`Coordinator.run_eq_run`** says that neither the number of workers nor the size of
tiles can be seen in the result: all coordinators that are not called off give the same outputs and
the same counts, without a fault. The outputs hold what the formulas give at the cells of the
region, and each place of each output is stored to once, with the one part that has its cell.

What is put together is followed by `PassOutput.Holds`: the outputs hold, at the cells that have
been merged so far, what the formulas give on slot values worked out from scratch. Merging one more
part preserves this, and in the end the cells of all parts are those of the region. What is stored
on the way is the list of stores that the merges come to (`Progress.storesInto`).
-/

namespace MapAlgebra

open Raster

variable {c : Catalog} {es : List Compiled} {plan : Plan} {region part : Region}
  {transform : Transform Float} {done : List (Nat × Nat)}

/-! ### Parts of a region -/

/-- Every cell of a part is a cell of the region. -/
def Region.Inside (part region : Region) : Prop := ∀ cell ∈ part.gridCells, cell ∈ region.gridCells

theorem Region.Covers.inside {parts : List Region} (h : Covers parts region)
    (hpart : part ∈ parts) : part.Inside region :=
  fun _ hcell => h.subset (List.mem_flatMap.2 ⟨part, hpart, hcell⟩)

/-- The place in the output of the region that belongs to a band and a cell of the grid. -/
def Region.place (region : Region) (band : Nat) (cell : Nat × Nat) : Nat × Nat × Nat :=
  (band, cell.1 - region.rowOffset, cell.2 - region.colOffset)

theorem Region.place_offset (region : Region) (band row col : Nat) :
    region.place band (region.rowOffset + row, region.colOffset + col) = (band, row, col) := by
  unfold place
  dsimp only
  rw [Nat.add_sub_cancel_left, Nat.add_sub_cancel_left]

/-- A cell of the region is found again from its place. -/
theorem Region.place_inj {band band' : Nat} {cell cell' : Nat × Nat} (h : cell ∈ region.gridCells)
    (h' : cell' ∈ region.gridCells) (heq : region.place band cell = region.place band' cell') :
    band = band' ∧ cell = cell' := by
  have hcell := mem_gridCells.1 h
  have hcell' := mem_gridCells.1 h'
  unfold place at heq
  rw [Prod.mk.injEq, Prod.mk.injEq] at heq
  exact ⟨heq.1, Prod.ext (by omega) (by omega)⟩

/-- Where a buffer over a part is written in the output of the region. -/
def Region.targetOf (region part : Region) : Nat × Nat × Nat → Nat × Nat × Nat :=
  target (part.rowOffset - region.rowOffset) (part.colOffset - region.colOffset)

/-- A sample of a buffer over a part is written at the place of its cell of the grid. -/
theorem Region.targetOf_eq (hinside : part.Inside region) {place : Nat × Nat × Nat}
    (hcell : place.2 ∈ part.cells) :
    part.toGrid place.2.1 place.2.2 ∈ part.gridCells ∧
      region.targetOf part place = region.place place.1 (part.toGrid place.2.1 place.2.2) := by
  refine ⟨toGrid_mem_gridCells hcell, ?_⟩
  -- a part that has a cell does not begin before the region
  have hcorner : (part.rowOffset, part.colOffset) ∈ region.gridCells := by
    have := mem_cells.1 hcell
    refine hinside _ (mem_gridCells.2 ?_)
    dsimp only
    omega
  have hle := mem_gridCells.1 hcorner
  unfold targetOf target Region.place toGrid
  dsimp only at hle ⊢
  refine Prod.ext rfl (Prod.ext ?_ ?_)
  · show part.rowOffset - region.rowOffset + place.2.1 =
      part.rowOffset + place.2.1 - region.rowOffset
    omega
  · show part.colOffset - region.colOffset + place.2.2 =
      part.colOffset + place.2.2 - region.colOffset
    omega

/-! ### Outputs that are put together -/

/-- What an output holds when the cells `done` of the grid have been merged. -/
structure Raster.Holds (c : Catalog) (region : Region) (transform : Transform Float)
    (done : List (Nat × Nat)) (r : Raster) (task : Task) : Prop where
  /-- Its type, extent and place are those of the output of the formula over the region. -/
  sameGrid : SameGrid (.output task.output.pixelType task.output.bands region.rows region.cols
    (transform.shifted region.colOffset region.rowOffset)) r
  /-- At a cell that has been merged it holds what the formula gives there. -/
  at?_eq : ∀ cell ∈ done, ∀ band < task.output.bands, r.at? (region.place band cell) =
    ((task.samples (c.slotsAt cell.1 cell.2)).1[band]?).map task.output.pixelType.store

theorem Raster.Holds.has {r : Raster} {task : Task} (h : r.Holds c region transform done task)
    {band : Nat} (hband : band < task.output.bands) {cell : Nat × Nat}
    (hcell : cell ∈ region.gridCells) : r.Has (region.place band cell) := by
  have hmem := Region.mem_gridCells.1 hcell
  refine ⟨?_, ?_, ?_⟩
  · exact h.sameGrid.bands ▸ hband
  · rw [h.sameGrid.rows]
    show cell.1 - region.rowOffset < region.rows
    omega
  · rw [h.sameGrid.cols]
    show cell.2 - region.colOffset < region.cols
    omega

/-- Writing the buffer of one more part. -/
theorem Raster.Holds.write {r : Raster} {task : Task} {b : Buffer}
    (h : r.Holds c region transform done task)
    (hb : b.Holds part task.output.bands (fun cell => (task.samples (c.slotsIn part cell)).1)
      part.cells)
    (hinside : part.Inside region) (hdone : ∀ cell ∈ done, cell ∈ region.gridCells) :
    ∃ r', r.write b (b.region.rowOffset - region.rowOffset)
        (b.region.colOffset - region.colOffset) = .ok r' ∧
      r'.Holds c region transform (done ++ part.gridCells) task := by
  obtain ⟨rfl, hbands, -, hget⟩ := hb
  have hplaces : ∀ place ∈ placesOf b, place.1 < task.output.bands ∧
      place.2 ∈ b.region.cells := by
    intro place hplace
    obtain ⟨hband, hcell⟩ := mem_placesOf.1 hplace
    exact ⟨hbands ▸ hband, Region.mem_cells.2 hcell⟩
  have hroom : ∀ place ∈ placesOf b, r.Has (region.targetOf b.region place) := by
    intro place hplace
    obtain ⟨hband, hcell⟩ := hplaces place hplace
    obtain ⟨hgrid, htarget⟩ := Region.targetOf_eq hinside hcell
    rw [htarget]
    exact h.has hband (hinside _ hgrid)
  obtain ⟨r', hwrite, hsame, hwritten, hkept⟩ := write_eq_ok hroom
  refine ⟨r', hwrite, h.sameGrid.trans hsame, fun cell hcell band hband => ?_⟩
  by_cases hpart : cell ∈ b.region.gridCells
  · obtain ⟨inner, hinner, rfl⟩ := List.mem_map.1 hpart
    have hplace : (band, inner) ∈ placesOf b :=
      mem_placesOf.2 ⟨hbands.symm ▸ hband, Region.mem_cells.1 hinner⟩
    have htarget : region.targetOf b.region (band, inner) = region.place band
      (b.region.toGrid inner.1 inner.2) := (Region.targetOf_eq hinside hinner).2
    have hstored := hwritten _ hplace
    have hsample := hget inner hinner band hband
    rw [← Region.targetOf, htarget] at hstored
    rw [hstored, h.sameGrid.pixelType]
    rw [Catalog.slotsIn] at hsample
    rw [Region.toGrid, hsample]
    rfl
  · have hcell : cell ∈ done := (List.mem_append.1 hcell).resolve_right hpart
    rw [← h.at?_eq cell hcell band hband]
    refine hkept _ fun place hplace heq => hpart ?_
    obtain ⟨hgrid, htarget⟩ := Region.targetOf_eq hinside (hplaces place hplace).2
    rw [← Region.targetOf, htarget] at heq
    rw [(Region.place_inj (hdone cell hcell) (hinside _ hgrid) heq).2]
    exact hgrid

/-- Writing a list of buffers, each into the output of its formula. -/
theorem writeAll_eq_ok {R R' : Raster → Task → Prop} {B : Buffer → Task → Prop}
    (hwrite : ∀ r b task, R r task → B b task → ∃ r',
      r.write b (b.region.rowOffset - region.rowOffset)
        (b.region.colOffset - region.colOffset) = .ok r' ∧ R' r' task)
    {rs : List Raster} {tasks : List Task} (hrs : List.Forall₂ R rs tasks) {bs : List Buffer}
    (hbs : List.Forall₂ B bs tasks) :
    ∃ rs', writeAll region rs bs = .ok rs' ∧ List.Forall₂ R' rs' tasks := by
  induction hrs generalizing bs with
  | nil =>
    cases hbs
    exact ⟨[], rfl, .nil⟩
  | cons hr _ ih =>
    cases hbs with
    | cons hb hbs =>
      obtain ⟨r', hr', hholds⟩ := hwrite _ _ _ hr hb
      obtain ⟨rs', hrs', hrest⟩ := ih hbs
      refine ⟨r' :: rs', ?_, .cons hholds hrest⟩
      unfold writeAll
      rw [hr', hrs']
      rfl

/-- What the outputs of a pass hold when the cells `done` of the grid have been merged. -/
structure PassOutput.Holds (c : Catalog) (plan : Plan) (region : Region)
    (transform : Transform Float) (done : List (Nat × Nat)) (out : PassOutput) : Prop where
  /-- There is an output for each formula, and it holds what the formula gives. -/
  rasters : List.Forall₂ (Raster.Holds c region transform done) out.rasters plan.tasks
  /-- The counts of each formula are those of the cells that have been merged. -/
  diagnostics : out.diagnostics = plan.tasks.map fun task =>
    .sum (done.map fun cell => (task.samples (c.slotsAt cell.1 cell.2)).2)

/-- Nothing has been merged. -/
theorem PassOutput.holds_blank (c : Catalog) (plan : Plan) (region : Region)
    (transform : Transform Float) :
    (blank plan region transform).Holds c plan region transform [] where
  rasters := List.forall₂_map_left_iff.2 (List.forall₂_same.2 fun _ _ =>
    ⟨.refl _, fun _ h => absurd h List.not_mem_nil⟩)
  diagnostics := rfl

/-- Merging what a worker has written over one more part. -/
theorem PassOutput.Holds.merge {out : PassOutput} {p : Progress}
    (h : out.Holds c plan region transform done) (hp : p.Written c plan part part.cells)
    (hinside : part.Inside region) (hdone : ∀ cell ∈ done, cell ∈ region.gridCells) :
    ∃ out', out.merge region p = .ok out' ∧
      out'.Holds c plan region transform (done ++ part.gridCells) := by
  obtain ⟨rs', hrs, hholds⟩ := writeAll_eq_ok
    (fun r b task hr hb => Raster.Holds.write hr hb hinside hdone) h.rasters hp.buffers
  refine ⟨⟨rs', List.zipWith (· + ·) out.diagnostics p.context.diagnostics⟩, ?_, hholds, ?_⟩
  · unfold PassOutput.merge
    rw [hrs]
    rfl
  · dsimp only
    rw [h.diagnostics, hp.diagnostics, List.zipWith_map_left, List.zipWith_map_right,
      List.zipWith_self]
    refine List.map_congr_left fun task _ => ?_
    rw [List.map_append, Diagnostics.sum_append, Region.gridCells, List.map_map]
    rfl

/-- Merging what workers have written over some more parts, one after the other. -/
theorem PassOutput.Holds.foldlM_merge (hplan : Plan.ofCompiled c es = .ok plan)
    (hregion : region.InGrids c.inputs) :
    ∀ {parts : List Region} {done : List (Nat × Nat)} {out : PassOutput},
      out.Holds c plan region transform done → (∀ part ∈ parts, part.Inside region) →
      (∀ cell ∈ done, cell ∈ region.gridCells) →
      ∃ out', (parts.map fun part => plan.evaluate part (.fresh plan)).foldlM
          (PassOutput.merge region) out = .ok out' ∧
        out'.Holds c plan region transform (done ++ parts.flatMap Region.gridCells)
  | [], done, out, h, _, _ => by
    refine ⟨out, rfl, ?_⟩
    rwa [List.flatMap_nil, List.append_nil]
  | part :: parts, done, out, h, hinside, hdone => by
    have hpart : part.Inside region := hinside part List.mem_cons_self
    have hwritten : (plan.evaluate part (.fresh plan)).Written c plan part part.cells :=
      Plan.evaluate_written hplan fun cell hcell => hregion cell (hpart cell hcell)
    obtain ⟨mid, hmerge, hmid⟩ := h.merge hwritten hpart hdone
    obtain ⟨out', hrest, hout⟩ := hmid.foldlM_merge hplan hregion
      (fun p hp => hinside p (List.mem_cons_of_mem _ hp))
      (fun cell hcell => (List.mem_append.1 hcell).elim (hdone cell) (hpart cell))
    refine ⟨out', ?_, ?_⟩
    · rw [List.map_cons, List.foldlM_cons, hmerge]
      exact hrest
    · rwa [List.flatMap_cons, ← List.append_assoc]

/-- The order in which cells have been merged does not matter. -/
theorem PassOutput.Holds.perm {out : PassOutput} {done' : List (Nat × Nat)}
    (h : out.Holds c plan region transform done) (hdone : done.Perm done') :
    out.Holds c plan region transform done' where
  rasters := h.rasters.imp fun r task hr =>
    ⟨hr.sameGrid, fun cell hcell => hr.at?_eq cell (hdone.mem_iff.2 hcell)⟩
  diagnostics := by
    rw [h.diagnostics]
    exact List.map_congr_left fun task _ => Diagnostics.sum_perm (hdone.map _)

/-- An output is settled by what it holds at the cells of the region. -/
theorem Raster.Holds.unique {r r' : Raster} {task : Task}
    (h : r.Holds c region transform region.gridCells task)
    (h' : r'.Holds c region transform region.gridCells task) : r = r' := by
  have hsame : r.SameGrid r' := h.sameGrid.symm.trans h'.sameGrid
  refine hsame.eq_of_at? fun place hplace => ?_
  obtain ⟨band, row, col⟩ := place
  obtain ⟨hband, hrow, hcol⟩ := hplace
  rw [h.sameGrid.bands] at hband
  rw [h.sameGrid.rows] at hrow
  rw [h.sameGrid.cols] at hcol
  have hinner : (row, col) ∈ region.cells := Region.mem_cells.2 ⟨hrow, hcol⟩
  have hcell : (region.rowOffset + row, region.colOffset + col) ∈ region.gridCells :=
    Region.toGrid_mem_gridCells hinner
  rw [← region.place_offset, h.at?_eq _ hcell band hband, h'.at?_eq _ hcell band hband]

/-- The outputs of a pass are settled by what they hold at the cells of the region. -/
theorem PassOutput.Holds.unique {out out' : PassOutput}
    (h : out.Holds c plan region transform region.gridCells)
    (h' : out'.Holds c plan region transform region.gridCells) : out = out' := by
  have hrasters : out.rasters = out'.rasters :=
    List.left_unique_forall₂' (fun _ _ _ hr hr' => hr.unique hr') h.rasters h'.rasters
  have hdiagnostics : out.diagnostics = out'.diagnostics := h.diagnostics.trans h'.diagnostics.symm
  cases out
  cases out'
  rw [PassOutput.mk.injEq]
  exact ⟨hrasters, hdiagnostics⟩

/-! ### Passes -/

namespace Coordinator

theorem covers_parts (k : Coordinator) (region : Region) (workers : Nat) :
    Region.Covers (k.parts region workers) region := by
  unfold parts
  split
  · exact Region.covers_tiles region _
  · exact Region.covers_strips region workers

/-- Parts that cover a region are put together without a fault, and the outputs hold what the
formulas give at the cells of the region. -/
theorem runParts_holds (hplan : Plan.ofCompiled c es = .ok plan) (hregion : region.InGrids c.inputs)
    (transform : Transform Float) {parts : List Region} (hcovers : Region.Covers parts region) :
    ∃ out, runParts plan region transform parts = .ok out ∧
      out.Holds c plan region transform region.gridCells := by
  obtain ⟨out, hfold, hout⟩ := (PassOutput.holds_blank c plan region transform).foldlM_merge hplan
    hregion (fun part hpart => hcovers.inside hpart) fun _ h => absurd h List.not_mem_nil
  rw [List.nil_append] at hout
  refine ⟨out, ?_, hout.perm hcovers⟩
  unfold runParts
  dsimp only
  rw [hfold]

/-- A pass that is not called off puts the parts together. -/
theorem run_of_runParts {k : Coordinator} (hk : k.isCancelled = false) (cores : Nat)
    {out : PassOutput}
    (hparts : runParts plan region transform (k.parts region (k.mode.workers cores)) = .ok out) :
    (k.run cores plan region transform).1 = .ok out := by
  have hgo : (k.isCancelled && !(k.parts region (k.mode.workers cores)).isEmpty) = false := by
    rw [hk, Bool.false_and]
  unfold run partition
  dsimp only
  rw [hgo]
  exact hparts

/-- A pass that is not called off succeeds, and its outputs hold what the formulas give at the cells
of the region. -/
theorem run_holds (hplan : Plan.ofCompiled c es = .ok plan) (hregion : region.InGrids c.inputs)
    (transform : Transform Float) {k : Coordinator} (hk : k.isCancelled = false) (cores : Nat) :
    ∃ out, (k.run cores plan region transform).1 = .ok out ∧
      out.Holds c plan region transform region.gridCells := by
  obtain ⟨out, hparts, hout⟩ := runParts_holds hplan hregion transform
    (k.covers_parts region (k.mode.workers cores))
  exact ⟨out, run_of_runParts hk cores hparts, hout⟩

end Coordinator

/-! ### Stores -/

/-- What is stored in the output of formula `i` when a worker's buffers are merged. -/
def Progress.storesInto (p : Progress) (region : Region) (i : Nat) : List Store :=
  p.buffers[i]?.elim [] fun b =>
    storesOf b (b.region.rowOffset - region.rowOffset) (b.region.colOffset - region.colOffset)

/-- What is stored in the output of formula `i` when parts are evaluated afresh and merged. -/
def Plan.storesInto (plan : Plan) (region : Region) (i : Nat) (parts : List Region) : List Store :=
  parts.flatMap fun part => (plan.evaluate part (.fresh plan)).storesInto region i

/-- Writing a list of buffers stores the samples of each in its output. -/
theorem setAll_of_writeAll {r : Raster} : ∀ {rs rs' : List Raster} {bs : List Buffer} {i : Nat},
    writeAll region rs bs = .ok rs' → rs[i]? = some r →
    ∃ r', rs'[i]? = some r' ∧ r.setAll (bs[i]?.elim [] fun b =>
      storesOf b (b.region.rowOffset - region.rowOffset)
        (b.region.colOffset - region.colOffset)) = .ok r'
  | [], _, _, _, _, hr => by cases hr
  | first :: rest, rs', [], i, hwrite, hr => by
    cases hwrite
    exact ⟨r, hr, rfl⟩
  | first :: rest, rs', b :: bs, i, hwrite, hr => by
    obtain ⟨written, hfirst, hwrite⟩ := bind_eq_ok_iff.1 hwrite
    obtain ⟨others, hrest, hwrite⟩ := bind_eq_ok_iff.1 hwrite
    cases hwrite
    cases i with
    | zero =>
      cases hr
      exact ⟨written, rfl, write_eq_setAll .. ▸ hfirst⟩
    | succ i =>
      have hr : rest[i]? = some r := hr
      obtain ⟨r', hr', hset⟩ := setAll_of_writeAll hrest hr
      exact ⟨r', hr', hset⟩

/-- Merging what workers have written, one after the other, stores their samples one after the
other. -/
theorem PassOutput.setAll_of_foldlM_merge {i : Nat} {ps : List Progress} {out out' : PassOutput}
    {r : Raster} (hmerge : ps.foldlM (merge region) out = .ok out')
    (hr : out.rasters[i]? = some r) :
    ∃ r', out'.rasters[i]? = some r' ∧ r.setAll (ps.flatMap (·.storesInto region i)) = .ok r' := by
  induction ps generalizing out r with
  | nil =>
    cases hmerge
    exact ⟨r, hr, rfl⟩
  | cons p ps ih =>
    rw [List.foldlM_cons] at hmerge
    obtain ⟨mid, hfirst, hrest⟩ := bind_eq_ok_iff.1 hmerge
    obtain ⟨rs, hwrite, hmid⟩ := bind_eq_ok_iff.1 hfirst
    cases hmid
    obtain ⟨r', hr', hset⟩ := setAll_of_writeAll hwrite hr
    obtain ⟨r'', hr'', hsets⟩ := ih hrest hr'
    refine ⟨r'', hr'', ?_⟩
    rw [List.flatMap_cons, setAll_append]
    exact bind_eq_ok_iff.2 ⟨r', hset, hsets⟩

/-- An output of a pass is what the stores of all parts make of the blank output. -/
theorem Coordinator.setAll_of_runParts {parts : List Region} {out : PassOutput}
    (hrun : runParts plan region transform parts = .ok out) {i : Nat} {task : Task} {r : Raster}
    (htask : plan.tasks[i]? = some task) (hr : out.rasters[i]? = some r) :
    (Raster.output task.output.pixelType task.output.bands region.rows region.cols
      (transform.shifted region.colOffset region.rowOffset)).setAll
        (plan.storesInto region i parts) = .ok r := by
  have hblank : (PassOutput.blank plan region transform).rasters[i]? =
      some (.output task.output.pixelType task.output.bands region.rows region.cols
        (transform.shifted region.colOffset region.rowOffset)) := by
    unfold PassOutput.blank
    rw [List.getElem?_map, htask]
    rfl
  unfold runParts at hrun
  dsimp only at hrun
  split at hrun
  · next hmerge =>
    cases hrun
    obtain ⟨r', hr', hset⟩ := PassOutput.setAll_of_foldlM_merge hmerge hblank
    obtain rfl : r' = r := Option.some.inj (hr'.symm.trans hr)
    rwa [List.flatMap_map] at hset
  · cases hrun

/-- A place of an output is stored to with a part as often as its cell is a cell of the part. -/
theorem Progress.Written.count_storesInto {p : Progress}
    (hp : p.Written c plan part part.cells) (hinside : part.Inside region) {i : Nat} {task : Task}
    (htask : plan.tasks[i]? = some task) {band : Nat} (hband : band < task.output.bands)
    {cell : Nat × Nat} (hcell : cell ∈ region.gridCells) :
    ((p.storesInto region i).map Store.place).count (region.place band cell) =
      part.gridCells.count cell := by
  obtain ⟨b, hb, hholds⟩ := hp.exists_buffer htask
  obtain ⟨hpart, hbands, -, -⟩ := hholds
  have hplaces : (p.storesInto region i).map Store.place =
      (placesOf b).map (region.targetOf part) := by
    unfold storesInto storesOf
    rw [hb, Option.elim_some, List.map_map, hpart]
    rfl
  have hnodup : ((placesOf b).map (region.targetOf part)).Nodup :=
    (nodup_placesOf _).map fun _ _ => target_inj
  rw [hplaces, hnodup.count, (Region.nodup_gridCells part).count]
  refine if_congr ?_ rfl rfl
  constructor
  · intro h
    obtain ⟨place, hplace, heq⟩ := List.mem_map.1 h
    have hmem : place.2 ∈ part.cells := hpart ▸ Region.mem_cells.2 (mem_placesOf.1 hplace).2
    obtain ⟨hgrid, htarget⟩ := Region.targetOf_eq hinside hmem
    rw [htarget] at heq
    rw [← (Region.place_inj (hinside _ hgrid) hcell heq).2]
    exact hgrid
  · intro h
    obtain ⟨inner, hinner, rfl⟩ := List.mem_map.1 h
    refine List.mem_map.2 ⟨(band, inner), ?_, (Region.targetOf_eq hinside hinner).2⟩
    rw [mem_placesOf, hbands, hpart]
    exact ⟨hband, Region.mem_cells.1 hinner⟩

/-- With parts that cover a region, each place of an output is stored to once. -/
theorem Plan.count_storesInto {parts : List Region} (hcovers : Region.Covers parts region)
    (hwritten : ∀ part ∈ parts,
      (plan.evaluate part (.fresh plan)).Written c plan part part.cells)
    {i : Nat} {task : Task} (htask : plan.tasks[i]? = some task) {band : Nat}
    (hband : band < task.output.bands) {cell : Nat × Nat} (hcell : cell ∈ region.gridCells) :
    ((plan.storesInto region i parts).map Store.place).count (region.place band cell) = 1 := by
  have hpart : ∀ part ∈ parts, (((plan.evaluate part (.fresh plan)).storesInto region i).map
      Store.place).count (region.place band cell) = part.gridCells.count cell := fun part hmem =>
    (hwritten part hmem).count_storesInto (hcovers.inside hmem) htask hband hcell
  calc ((plan.storesInto region i parts).map Store.place).count (region.place band cell)
      = (parts.map fun part => part.gridCells.count cell).sum := by
        rw [storesInto, List.map_flatMap, List.count_flatMap]
        exact congrArg List.sum (List.map_congr_left hpart)
    _ = (parts.flatMap Region.gridCells).count cell := by
        rw [List.count_flatMap]
        rfl
    _ = region.gridCells.count cell := hcovers.count_eq cell
    _ = 1 := List.count_eq_one_of_mem (Region.nodup_gridCells region) hcell

/-- Of parts that cover a region, one has a given cell. -/
theorem Region.Covers.exists_part {parts : List Region} (h : Covers parts region)
    {cell : Nat × Nat} (hcell : cell ∈ region.gridCells) :
    ∃ part, parts.filter (·.Contains cell) = [part] := by
  rw [← List.length_eq_one_iff, ← List.countP_eq_length_filter, ← count_flatMap_gridCells,
    h.count_eq]
  exact List.count_eq_one_of_mem (nodup_gridCells region) hcell

/-- How the output `r` of formula `i` over a region is put together from some parts. -/
structure Raster.Assembled (plan : Plan) (region : Region) (transform : Transform Float)
    (parts : List Region) (i : Nat) (task : Task) (r : Raster) : Prop where
  /-- It is what the stores of all parts make of the blank output. -/
  stored : (Raster.output task.output.pixelType task.output.bands region.rows region.cols
    (transform.shifted region.colOffset region.rowOffset)).setAll
      (plan.storesInto region i parts) = .ok r
  /-- Each place is stored to once. -/
  once : ∀ band row col, band < task.output.bands → row < region.rows → col < region.cols →
    ((plan.storesInto region i parts).map Store.place).count (band, row, col) = 1
  /-- Exactly one part has the cell of a place, and the sample there is that of the buffer over this
  part, as the type of the output stores it. -/
  fromPart : ∀ band row col, band < task.output.bands → row < region.rows → col < region.cols →
    ∃ part b,
      parts.filter (·.Contains (region.rowOffset + row, region.colOffset + col)) = [part] ∧
      (plan.evaluate part (.fresh plan)).buffers[i]? = some b ∧
      r.get? band row col = some (task.output.pixelType.store
        (b.get band (region.rowOffset + row - part.rowOffset)
          (region.colOffset + col - part.colOffset)))

/-- Outputs that hold what the formulas give hold what the buffers over the parts do. -/
theorem Raster.Holds.eq_part {r : Raster} {i : Nat} {task : Task}
    (h : r.Holds c region transform region.gridCells task)
    (htask : plan.tasks[i]? = some task) {p : Progress} (hp : p.Written c plan part part.cells)
    {band : Nat} (hband : band < task.output.bands) {cell : Nat × Nat}
    (hcell : cell ∈ region.gridCells) (hpart : cell ∈ part.gridCells) :
    ∃ b : Buffer, p.buffers[i]? = some b ∧ r.at? (region.place band cell) =
      some (task.output.pixelType.store
        (b.get band (cell.1 - part.rowOffset) (cell.2 - part.colOffset))) := by
  obtain ⟨b, hb, hholds⟩ := hp.exists_buffer htask
  obtain ⟨inner, hinner, rfl⟩ := List.mem_map.1 hpart
  refine ⟨b, hb, ?_⟩
  have hsample := hholds.get_eq inner hinner band hband
  rw [Catalog.slotsIn] at hsample
  have hat := h.at?_eq _ hcell band hband
  rw [Region.toGrid] at hat ⊢
  rw [hat, hsample, Option.map_some, Nat.add_sub_cancel_left, Nat.add_sub_cancel_left]

/-- Each output of a pass is put together from the parts. -/
theorem PassOutput.Holds.assembled {out : PassOutput} (hplan : Plan.ofCompiled c es = .ok plan)
    (hregion : region.InGrids c.inputs) {parts : List Region} (hcovers : Region.Covers parts region)
    (hrun : Coordinator.runParts plan region transform parts = .ok out)
    (hout : out.Holds c plan region transform region.gridCells) {i : Nat} {task : Task} {r : Raster}
    (htask : plan.tasks[i]? = some task) (hr : out.rasters[i]? = some r) :
    r.Assembled plan region transform parts i task := by
  have hwritten : ∀ part ∈ parts,
      (plan.evaluate part (.fresh plan)).Written c plan part part.cells := fun part hpart =>
    Plan.evaluate_written hplan fun cell hcell => hregion cell (hcovers.inside hpart cell hcell)
  have hgrid : ∀ row col, row < region.rows → col < region.cols →
      (region.rowOffset + row, region.colOffset + col) ∈ region.gridCells := by
    intro row col hrow hcol
    have hinner : (row, col) ∈ region.cells := Region.mem_cells.2 ⟨hrow, hcol⟩
    exact Region.toGrid_mem_gridCells hinner
  refine ⟨Coordinator.setAll_of_runParts hrun htask hr, fun band row col hband hrow hcol => ?_,
    fun band row col hband hrow hcol => ?_⟩
  · have hcount :=
      Plan.count_storesInto hcovers hwritten htask hband (hgrid row col hrow hcol)
    rwa [Region.place_offset] at hcount
  · have hcell := hgrid row col hrow hcol
    obtain ⟨part, hfilter⟩ := hcovers.exists_part hcell
    obtain ⟨hmem, hpart⟩ := List.mem_filter.1 (hfilter ▸ List.mem_singleton_self part)
    obtain ⟨r', hr', hholds⟩ := exists_getElem?_of_forall₂ hout.rasters htask
    obtain rfl : r' = r := Option.some.inj (hr'.symm.trans hr)
    obtain ⟨b, hb, hat⟩ := hholds.eq_part htask (hwritten part hmem) hband hcell
      (Region.mem_gridCells.2 (of_decide_eq_true hpart))
    rw [Region.place_offset] at hat
    exact ⟨part, b, hfilter, hb, hat⟩

/-- **Partitions**: over a region inside the inputs there are outputs that hold, at each cell and in
each band, what the formulas give there as the type of the output stores it, and counts that are the
sums of what the formulas give. Every coordinator that is not called off gives these, without a
fault, on any number of cores. Each output is what the stores of the parts make of the blank one:
each place is stored to once, with the one part that has its cell. -/
theorem Coordinator.run_eq_run {c : Catalog} {es : List Compiled} {plan : Plan} {region : Region}
    (hplan : Plan.ofCompiled c es = .ok plan)
    (hregion : ∀ s ∈ c.inputs, region.checkWithin s.raster.rows s.raster.cols = .ok ())
    (transform : Transform Float) :
    ∃ out : PassOutput, out.Holds c plan region transform region.gridCells ∧
      ∀ (k : Coordinator) (cores : Nat), k.isCancelled = false →
        (k.run cores plan region transform).1 = .ok out ∧
        ∀ (i : Nat) (task : Task) (r : Raster),
          plan.tasks[i]? = some task → out.rasters[i]? = some r →
          r.Assembled plan region transform (k.parts region (k.mode.workers cores)) i task := by
  have hgrids : region.InGrids c.inputs := Region.inGrids_of_checkWithin hregion
  obtain ⟨out, -, hout⟩ := runParts_holds hplan hgrids transform (Region.covers_strips region 1)
  refine ⟨out, hout, fun k cores hk => ?_⟩
  have hcovers := k.covers_parts region (k.mode.workers cores)
  obtain ⟨out', hparts, hout'⟩ := runParts_holds hplan hgrids transform hcovers
  obtain rfl : out' = out := hout'.unique hout
  refine ⟨run_of_runParts hk cores hparts, fun i task r htask hr => ?_⟩
  exact hout.assembled hplan hgrids hcovers hparts htask hr

/-- One worker, and three workers with tiles of no size, over the sample: twenty times its upper
cells, which bytes cut off at 255. -/
theorem Coordinator.run_sample :
    let region : Region := .full 2 2
    let k : Coordinator := ⟨.sequential, none, .idle, false⟩
    let k' : Coordinator := ⟨.parallelWith 3, some 0, .idle, false⟩
    Plan.ofCompiled Sample.catalog [Sample.beside, Sample.scaled] = .ok Sample.plan ∧
      (∀ s ∈ Sample.catalog.inputs, region.checkWithin s.raster.rows s.raster.cols = .ok ()) ∧
      ∃ (out : PassOutput) (r : Raster), (k.run 1 Sample.plan region .unit).1 = .ok out ∧
        (k'.run 8 Sample.plan region .unit).1 = .ok out ∧ out.rasters[1]? = some r ∧
        r.get? 0 0 0 = some 140.0 ∧ r.get? 0 0 1 = some 255.0 ∧
        r.Assembled Sample.plan region .unit (region.tiles 0) 1 Sample.scaled.task := by
  intro region k k'
  have hregion : ∀ s ∈ Sample.catalog.inputs,
      region.checkWithin s.raster.rows s.raster.cols = .ok () := by
    intro s hs
    rw [Sample.inputs_catalog] at hs
    obtain rfl := List.mem_singleton.1 hs
    rfl
  obtain ⟨out, hout, hrun⟩ := run_eq_run Sample.ofCompiled_eq_plan hregion .unit
  have htask : Sample.plan.tasks[1]? = some Sample.scaled.task := by
    rw [(Plan.renews_of_ofCompiled Sample.ofCompiled_eq_plan).2]
    rfl
  obtain ⟨r, hr, hholds⟩ := exists_getElem?_of_forall₂ hout.rasters htask
  obtain ⟨hk, -⟩ := hrun k 1 rfl
  obtain ⟨hk', hassembled⟩ := hrun k' 8 rfl
  have hbands : 0 < Sample.scaled.task.output.bands := by decide +kernel
  have hfirst := hholds.at?_eq (0, 0) (Region.mem_gridCells.2 (by decide)) 0 hbands
  have hsecond := hholds.at?_eq (0, 1) (Region.mem_gridCells.2 (by decide)) 0 hbands
  have hfirstValue : ((Sample.scaled.task.samples (Sample.catalog.slotsAt 0 0)).1[0]?).map
      Sample.scaled.task.output.pixelType.store = some 140.0 := by decide +kernel
  have hsecondValue : ((Sample.scaled.task.samples (Sample.catalog.slotsAt 0 1)).1[0]?).map
      Sample.scaled.task.output.pixelType.store = some 255.0 := by decide +kernel
  exact ⟨Sample.ofCompiled_eq_plan, hregion, out, r, hk, hk', hr, hfirst.trans hfirstValue,
    hsecond.trans hsecondValue, hassembled 1 _ r htask hr⟩

end MapAlgebra
