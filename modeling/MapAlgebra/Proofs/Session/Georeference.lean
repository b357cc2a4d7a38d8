import MapAlgebra.Proofs.Catalog.Positional
import MapAlgebra.Proofs.Number.Rational
import MapAlgebra.Proofs.Pass.Convolution
import MapAlgebra.Proofs.Session.Reachable

/-!
# Where outputs lie

A pass over a region calculates coordinates twice: once for its outputs, which get the map of the
region, and at every cell for the formulas that read the coordinates of the first input. Main
statement: **`Session.Reachable.georeferencing`**. Both are calculated from the map of the first
input by functions over any numbers (`Region.georeference`, `Region.coordinates`), and calculated
with exact numbers they agree at all cells of all regions.
-/

namespace MapAlgebra

/-! ### The two calculations -/

namespace Region

section AnyNumbers

variable {α : Type} [Scalar α]

/-- The map of a region, given that of the grid. -/
def georeference (region : Region) (t : Transform α) : Transform α :=
  t.shifted region.colOffset region.rowOffset

/-- The coordinates of a cell of a region, given the map of the grid. -/
def coordinates (region : Region) (t : Transform α) (row col : Nat) : α × α :=
  let cell := region.toGrid row col
  t.center cell.2 cell.1

end AnyNumbers

/-- With exact numbers, the map of a region gives the centre of a cell its coordinates. -/
theorem center_georeference (region : Region) (t : Transform ℚ) (row col : Nat) :
    (region.georeference t).center col row = region.coordinates t row col :=
  t.center_shifted region.colOffset region.rowOffset col row

end Region

/-! ### Coordinates in formulas -/

section Coordinates

variable {inputs : List Source} {image : Nat} {source : Source}

theorem Kind.valueAt_physicalX (hs : inputs[image]? = some source) (row col : Nat) :
    (Kind.physicalX image).valueAt inputs row col =
      .scalar (source.raster.transform.center col row).1 := by
  simp [valueAt, hs]

theorem Kind.valueAt_physicalY (hs : inputs[image]? = some source) (row col : Nat) :
    (Kind.physicalY image).valueAt inputs row col =
      .scalar (source.raster.transform.center col row).2 := by
  simp [valueAt, hs]

end Coordinates

/-- What a worker has in a slot that a formula reads, when it moves to a cell of the grid: what the
variable is worth there. -/
theorem Context.VisitedIn.getElem?_moveTo {c : Catalog} {es : List Compiled} {plan : Plan}
    {ctx : Context} (hplan : Plan.ofCompiled c es = .ok plan) (h : ctx.VisitedIn c.inputs plan)
    {e : Compiled} (he : e ∈ es) {row col : Nat} (hcell : InGrids c.inputs row col) {slot : Nat}
    (hslot : slot ∈ e.program.tree.references) {v : Variable} (hv : c.slots[slot]? = some v) :
    (ctx.moveTo plan row col).slots[slot]? = some (v.kind.valueAt c.inputs row col) := by
  have hagree := agreeOn_moveTo (Plan.renews_of_ofCompiled hplan).1 (h.sound hplan) hcell he
  rw [hagree slot hslot, c.getElem?_slotsAt, hv, Option.map_some]

namespace Session

variable {s : Session} {first : Source} {region : Region}

/-- The outputs of a pass over a region lie where the formulas of the session read coordinates, when
the pass has this plan and the session this first input. -/
structure Georeferences (s : Session) (first : Source) (region : Region) (plan : Plan)
    (outs : List ExpressionOutput) : Prop where
  /-- There is an output for each formula. -/
  length_eq : outs.length = s.expressions.length
  /-- The outputs have the map of the region. -/
  transform : ∀ o ∈ outs, o.raster.transform = region.georeference first.raster.transform
  /-- Wherever in the grid a worker has been before, formulas that read the coordinates of the first
  input read those of the cell. -/
  coordinates : ∃ x y, s.catalog.resolve "im1PhyX" = .ok (x, s.catalog) ∧
    s.catalog.resolve "im1PhyY" = .ok (y, s.catalog) ∧
    ∀ ctx : Context, ctx.VisitedIn s.catalog.inputs plan → ∀ e ∈ s.expressions,
      ∀ row < region.rows, ∀ col < region.cols,
        let cell := region.toGrid row col
        let slots := (ctx.moveTo plan cell.1 cell.2).slots
        let position := region.coordinates first.raster.transform row col
        (x ∈ e.program.tree.references → slots[x]? = some (.scalar position.1)) ∧
          (y ∈ e.program.tree.references → slots[y]? = some (.scalar position.2))
  /-- With exact numbers, the map of the region gives the centre of each cell its coordinates. -/
  agree : ∀ (t : Transform ℚ) (row col : Nat),
    (region.georeference t).center col row = region.coordinates t row col

/-- A cell of a region that a pass is let begin over lies in the grids of all inputs. -/
theorem Settled.inGrids_toGrid (h : s.Settled) {transform : Transform Float}
    (hcheck : s.checkPass region = .ok transform) {row col : Nat} (hrow : row < region.rows)
    (hcol : col < region.cols) :
    InGrids s.catalog.inputs (region.toGrid row col).1 (region.toGrid row col).2 := by
  refine h.inGrids_of_checkPass hcheck (region.toGrid row col) (Region.mem_gridCells.2 ?_)
  simp only [Region.toGrid]
  omega

/-- **Georeferencing**: a pass over a region inside the first input that is not called off gives
outputs that lie where the coordinates say that formulas read: with exact numbers, the centre of
each cell of an output has the coordinates that the formulas read at the cell, whatever map the
first input has. -/
theorem Reachable.georeferencing (h : s.Reachable) (hcancelled : s.isCancelled = false)
    (hfirst : s.catalog.inputs.head? = some first) (hexpressions : s.expressions ≠ [])
    (hwithin : region.checkWithin first.raster.rows first.raster.cols = .ok ()) (cores : Nat) :
    ∃ plan outs, Plan.ofCompiled s.catalog s.expressions = .ok plan ∧
      (s.runRegion cores region).1 = ((Coordinator.ofParams s.params s.isCancelled).run cores plan
        region first.raster.transform).1.map (outputsOf s.expressions) ∧
      (s.runRegion cores region).1 = .ok outs ∧ s.Georeferences first region plan outs := by
  have hsettled := h.settled
  have hcheck : s.checkPass region = .ok first.raster.transform :=
    checkPass_eq_ok_iff.2 ⟨first, hfirst, hexpressions, hwithin, rfl⟩
  obtain ⟨plan, hplan, hpass⟩ := hsettled.runRegion_eq hcheck cores
  obtain ⟨outs, hrun, houts⟩ := hsettled.runRegion_holds hcancelled hcheck cores
  have hinput : s.catalog.inputs[0]? = some first := by rwa [← List.head?_eq_getElem?]
  have hpositional := hsettled.catalog.positional hinput
  obtain ⟨x, hx, hslotX⟩ := hpositional.spelled _ _ .physicalX
  obtain ⟨y, hy, hslotY⟩ := hpositional.spelled _ _ .physicalY
  refine ⟨plan, outs, hplan, congrArg Prod.fst hpass, congrArg Prod.fst hrun, houts.length_eq,
    fun o ho => ?_, ⟨x, y, hx, hy, fun ctx hctx e he row hrow col hcol => ?_⟩,
    region.center_georeference⟩
  · obtain ⟨i, hi⟩ := List.mem_iff_getElem?.1 ho
    obtain ⟨e, -, hholds⟩ := exists_getElem?_of_forall₂ houts.flip hi
    exact hholds.raster.sameGrid.transform
  · have hcell := hsettled.inGrids_toGrid hcheck hrow hcol
    refine ⟨fun hread => ?_, fun hread => ?_⟩
    · rw [hctx.getElem?_moveTo hplan he hcell hread hslotX, Kind.valueAt_physicalX hinput]
      rfl
    · rw [hctx.getElem?_moveTo hplan he hcell hread hslotY, Kind.valueAt_physicalY hinput]
      rfl

namespace Sample

/-- Two by two cells of a turned grid. -/
def turned : Source :=
  ⟨{ MapAlgebra.Sample.source.raster with transform := ⟨100, 50, 2, -2, 0.5, 0.25⟩ }, false⟩

/-- The session of the turned grid. -/
def turnedRegistered : Nat × Session :=
  valueOf ((initial .standard).register turned none) (by decide +kernel)

/-- The session in which a formula reads both coordinates. -/
def located : Session := (turnedRegistered.2.compileTyped "im1PhyX ; im1PhyY" .f64).2

theorem located_reachable : located.Reachable := by
  have hregister : (initial .standard).register turned none = .ok turnedRegistered :=
    eq_ok_valueOf _
  exact .compileTyped _ _ (.register (.initial _) hregister)

theorem head?_inputs_located : located.catalog.inputs.head? = some turned := by
  have hinputs : located.catalog.inputs = [turned] := by
    simp only [located, catalog_compileTyped, Catalog.inputs_compile]
    rfl
  rw [hinputs]
  rfl

end Sample

/-- The last cell of the turned grid on its own: its output lies where the formula says. -/
theorem georeferences_turned :
    let s := Sample.located
    let region : Region := ⟨1, 1, 1, 1⟩
    s.Reachable ∧ s.isCancelled = false ∧ s.catalog.inputs.head? = some Sample.turned ∧
      s.expressions ≠ [] ∧ region.checkWithin 2 2 = .ok () ∧
      ∃ plan outs, Plan.ofCompiled s.catalog s.expressions = .ok plan ∧
        (s.runRegion 2 region).1 = .ok outs ∧ s.Georeferences Sample.turned region plan outs ∧
        (∃ e ∈ s.expressions, e.program.tree.references.length = 2) := by
  intro s region
  have hcancelled : s.isCancelled = false := by decide +kernel
  have hreads : (s.expressions.any fun e => e.program.tree.references.length = 2) = true := by
    decide +kernel
  obtain ⟨e, he, hread⟩ := List.any_eq_true.1 hreads
  have hwithin : region.checkWithin 2 2 = .ok () := rfl
  obtain ⟨plan, outs, hplan, -, hrun, hgeoreferences⟩ := Sample.located_reachable.georeferencing
    hcancelled Sample.head?_inputs_located (List.ne_nil_of_mem he) hwithin 2
  exact ⟨Sample.located_reachable, hcancelled, Sample.head?_inputs_located, List.ne_nil_of_mem he,
    hwithin, plan, outs, hplan, hrun, hgeoreferences, e, he, of_decide_eq_true hread⟩

end Session

end MapAlgebra
