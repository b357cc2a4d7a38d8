import MapAlgebra.Proofs.Catalog.Reachable
import MapAlgebra.Proofs.Expr.Probe
import MapAlgebra.Proofs.Pass.Cellwise

/-!
# The interpreter of single cells

The plain reading of a compiled formula: at a cell, work out all variables from scratch, evaluate
the formula, clamp each component of its value; where it has no value, every band holds what is no
number (`Compiled.samplesAt`). A pass is quicker, as it carries slots and windows from cell to cell
and checks the shape of every value. Main statement: **`Plan.evaluate_eq_samplesAt`** says that a
pass over a region gives what the interpreter gives, cell by cell and band by band, and counts what
the interpreter counts.

The check of the shape drops out because the formula has been compiled: what it was probed with is
alike what its slots hold at any cell of any later catalog (`Compiled.alikeOn_slotsAt`).
-/

namespace MapAlgebra

open MapAlgebra.Expr Value

/-! ### Compiled formulas and their slots -/

/-- What a variable is worth at a cell has the shape and kind of its placeholder. -/
theorem Kind.valueAt_alike (inputs : List Source) (row col : Nat) (k : Kind) :
    Alike k.placeholder (k.valueAt inputs row col) := by
  cases k with
  | pixel image bands =>
    simp only [valueAt]
    cases inputs[image]? with
    | none => exact Alike.refl _
    | some s =>
      have hlen : ((List.range bands).map fun b => s.raster.sample b row col).length = bands := by
        rw [List.length_map, List.length_range]
      exact ⟨congrArg (Shape.mk 1) hlen.symm, rfl⟩
  | window key =>
    simp only [valueAt]
    cases inputs[key.image]? with
    | none => exact Alike.refl _
    | some s => exact ⟨rfl, rfl⟩
  | band image b | physicalX image | physicalY image =>
    simp only [valueAt]
    cases inputs[image]? with
    | none => exact Alike.refl _
    | some s => exact alike_scalar _ _
  | statistic image b which =>
    simp only [valueAt]
    cases inputs[image]? with
    | none => exact Alike.refl _
    | some s =>
      rw [Option.map_some, Option.getD_some]
      cases s.statistics b with
      | error e => exact Alike.refl _
      | ok statistics => exact alike_scalar _ _
  | indexX => exact alike_scalar _ _
  | indexY => exact alike_scalar _ _
  | constant x => exact Alike.refl _
  | matrix m => exact Alike.refl _

/-- A formula that has been compiled was probed on the placeholders of the catalog that the
compilation left, and has as many bands as the row it gave there has components. -/
theorem Catalog.compile_eq_ok {c c' : Catalog} {text : String} {t : PixelType} {e : Compiled}
    (h : c.compile text t = (.ok e, c')) :
    ∃ v row, e.program.probe c'.placeholders = .ok v ∧ v.asRow? = some row ∧
      e.output = ⟨row.length, t⟩ := by
  unfold compile at h
  split at h
  · cases h
  · next f _ =>
    split at h
    · cases h
    · next r c'' hresolved =>
      split at h
      · split at h
        · cases h
        · next program _ =>
          unfold finish at h
          split at h
          · cases h
          · next v hprobe =>
            split at h
            · cases h
            · next row hrow =>
              cases h
              exact ⟨v, row, hprobe, hrow, rfl⟩
      · cases h

/-- A formula has been compiled on the way to a catalog. -/
def Compiled.IsOf (e : Compiled) (c : Catalog) : Prop :=
  ∃ (c₀ c₁ : Catalog) (text : String) (t : PixelType),
    c₀.compile text t = (.ok e, c₁) ∧ c₁.LeadsTo c

/-- **Probed shapes**: the values of the slots that a compiled formula reads are alike, at every
cell, the placeholders it was probed with. -/
theorem Compiled.alikeOn_slotsAt {p : Program} {c₁ c : Catalog} (hlater : c₁.LeadsTo c) {v : Value}
    (hprobe : p.probe c₁.placeholders = .ok v) (row col : Nat) :
    AlikeOn p.tree.references c₁.placeholders (c.slotsAt row col) := by
  intro slot hslot
  obtain ⟨a, ha⟩ := p.tree.bound_of_probe hprobe slot hslot
  rw [c₁.getElem?_placeholders] at ha
  obtain ⟨x, hx, rfl⟩ := Option.map_eq_some_iff.1 ha
  refine ⟨x.kind.placeholder, x.kind.valueAt c.inputs row col, ?_, ?_, x.kind.valueAt_alike ..⟩
  · rw [c₁.getElem?_placeholders, hx, Option.map_some]
  · rw [c.getElem?_slotsAt, hlater.extends slot x hx, Option.map_some]

/-- A value that a compiled formula has at a cell is a row of one component for each band. -/
theorem Compiled.asRow?_of_evaluate {e : Compiled} {c : Catalog} (he : e.IsOf c) {row col : Nat}
    {v : Value} (hv : e.program.evaluate (c.slotsAt row col) = .ok v) :
    v.asRow? = some v.cells ∧ v.cells.length = e.output.bands := by
  obtain ⟨c₀, c₁, text, t, hcompile, hlater⟩ := he
  obtain ⟨w, cells, hprobe, hcells, houtput⟩ := Catalog.compile_eq_ok hcompile
  have hmeets := e.program.tree.eval_of_probe (alikeOn_slotsAt hlater hprobe row col) hprobe
  unfold Program.evaluate at hv
  rw [hv] at hmeets
  have halike : Alike w v := hmeets
  rw [asRow?_eq] at hcells ⊢
  split at hcells
  · next hrows =>
    cases hcells
    rw [if_pos (halike.1 ▸ hrows), houtput]
    exact ⟨rfl, halike.length_cells.symm⟩
  · cases hcells

/-! ### The interpreter -/

/-- The samples of a formula at a cell, and what is counted there: the components of its value on
slots worked out from scratch, clamped to its output, or what is no number in every band. -/
def Compiled.samplesAt (e : Compiled) (c : Catalog) (row col : Nat) : List Float × Diagnostics :=
  match e.program.evaluate (c.slotsAt row col) with
  | .ok v =>
    (v.cells.map fun x => (e.output.pixelType.clamp x).1,
      .sum (v.cells.map fun x => (e.output.pixelType.clamp x).2))
  | .error _ =>
    (List.replicate e.output.bands Number.nan, { Diagnostics.none with runtimeErrors := 1 })

/-- What a pass makes of the slots of a cell is what the interpreter gives. -/
theorem Compiled.samples_slotsAt {e : Compiled} {c : Catalog} (he : e.IsOf c) (row col : Nat) :
    e.task.samples (c.slotsAt row col) = e.samplesAt c row col := by
  cases hv : e.program.evaluate (c.slotsAt row col) with
  | error fault =>
    have hcomponents : e.task.components? (c.slotsAt row col) = none := by
      rw [Task.components?, task, hv]
    rw [Task.samples, hcomponents, samplesAt, hv]
    rfl
  | ok v =>
    obtain ⟨hrow, hlen⟩ := asRow?_of_evaluate he hv
    have hcomponents : e.task.components? (c.slotsAt row col) = some v.cells := by
      rw [Task.components?, task, hv]
      show v.asRow?.filter _ = some v.cells
      rw [hrow, Option.filter_some, if_pos (decide_eq_true hlen)]
    rw [Task.samples, hcomponents, samplesAt, hv]
    dsimp only
    rw [List.map_map, List.map_map]
    rfl

/-! ### Passes -/

/-- A region inside the first input of a reachable catalog is inside all of them. -/
theorem Catalog.Reachable.inGrids {c : Catalog} (hc : c.Reachable) {region : Region}
    (h : ∀ s, c.inputs.head? = some s → region.checkWithin s.raster.rows s.raster.cols = .ok ()) :
    region.InGrids c.inputs := by
  refine Region.inGrids_of_checkWithin fun s hs => ?_
  cases hinputs : c.inputs with
  | nil =>
    rw [hinputs] at hs
    cases hs
  | cons first rest =>
    have hfirst := h first (by rw [hinputs]; rfl)
    obtain ⟨hrows, hcols⟩ := hc.oneExtent s hs first (hinputs ▸ List.mem_cons_self)
    rwa [hrows, hcols]

/-- **Passes**: over a region inside the inputs, a pass of formulas compiled on the way to a catalog
writes, for each formula, band and cell, what the interpreter gives there, and its counts are the
sums of what the interpreter counts. -/
theorem Plan.evaluate_eq_samplesAt {c : Catalog} {es : List Compiled} {plan : Plan}
    {region : Region} (hc : c.Reachable) (hes : ∀ e ∈ es, e.IsOf c)
    (hplan : ofCompiled c es = .ok plan)
    (hregion : ∀ s, c.inputs.head? = some s →
      region.checkWithin s.raster.rows s.raster.cols = .ok ()) :
    let p := plan.evaluate region (.fresh plan)
    p.buffers.length = es.length ∧ p.context.diagnostics.length = es.length ∧
      ∀ (i : Nat) (e : Compiled), es[i]? = some e →
        (∃ b : Buffer, p.buffers[i]? = some b ∧ b.region = region ∧ b.bands = e.output.bands ∧
          ∀ band row col, band < e.output.bands → row < region.rows → col < region.cols →
            (e.samplesAt c (region.rowOffset + row) (region.colOffset + col)).1[band]? =
              some (b.get band row col)) ∧
        p.context.diagnostics[i]? = some (.sum (region.cells.map fun cell =>
          (e.samplesAt c (region.rowOffset + cell.1) (region.colOffset + cell.2)).2)) := by
  intro p
  have hwritten : p.Written c plan region region.cells :=
    evaluate_written hplan (hc.inGrids hregion)
  have htasks : plan.tasks = es.map Compiled.task := (renews_of_ofCompiled hplan).2
  have hdiagnostics := hwritten.diagnostics
  rw [htasks] at hdiagnostics
  refine ⟨?_, ?_, fun i e he => ⟨?_, ?_⟩⟩
  · rw [hwritten.buffers.length_eq, htasks, List.length_map]
  · rw [hdiagnostics, List.length_map, List.length_map]
  · have hof := hes e (List.mem_of_getElem? he)
    have htask : plan.tasks[i]? = some e.task := by rw [htasks, List.getElem?_map, he]; rfl
    obtain ⟨b, hb, hholds⟩ := hwritten.exists_buffer htask
    refine ⟨b, hb, hholds.region_eq, hholds.bands_eq, fun band row col hband hrow hcol => ?_⟩
    have hget := hholds.get_eq (row, col) (Region.mem_cells.2 ⟨hrow, hcol⟩) band hband
    rw [← hget, Catalog.slotsIn, Compiled.samples_slotsAt hof]
  · have hof := hes e (List.mem_of_getElem? he)
    rw [hdiagnostics, List.getElem?_map, List.getElem?_map, he, Option.map_some, Option.map_some]
    refine congrArg (fun ds => some (Diagnostics.sum ds)) (List.map_congr_left fun cell _ => ?_)
    rw [Catalog.slotsIn, Compiled.samples_slotsAt hof]

/-! ### A pass -/

namespace Sample

/-- Two by two cells. -/
def source : Source :=
  ⟨valueOf (Raster.ofSamples .f64 1 2 2 [7, 90, -3, 4]) (by decide +kernel), false⟩

/-- The catalog of these cells. -/
def registered : Nat × Catalog :=
  valueOf (Catalog.initial.register source none) (by decide +kernel)

/-- The compilation of a window. -/
def compileBeside : Except Failure Compiled × Catalog := registered.2.compile "im1b1N3x1" .f32

/-- The compilation after that. -/
def compileScaled : Except Failure Compiled × Catalog := compileBeside.2.compile "im1b1 * 20" .u8

/-- The cells beside a cell. -/
def beside : Compiled := valueOf compileBeside.1 (by decide +kernel)

/-- Twenty times a cell. -/
def scaled : Compiled := valueOf compileScaled.1 (by decide +kernel)

/-- The catalog both formulas have been compiled against. -/
def catalog : Catalog := compileScaled.2

/-- The plan of both formulas. -/
def plan : Plan := valueOf (Plan.ofCompiled catalog [beside, scaled]) (by decide +kernel)

theorem catalog_reachable : catalog.Reachable := by
  have hregister : Catalog.initial.register source none = .ok registered := eq_ok_valueOf _
  have hregistered : Catalog.initial.LeadsTo registered.2 := .register .refl hregister
  exact (hregistered.compile _ _).compile _ _

theorem isOf_catalog : ∀ e ∈ [beside, scaled], e.IsOf catalog := by
  intro e he
  rcases List.mem_cons.1 he with rfl | he
  · refine ⟨registered.2, compileBeside.2, "im1b1N3x1", .f32, ?_, .compile _ _ .refl⟩
    exact Prod.ext (eq_ok_valueOf _) rfl
  · obtain rfl := List.mem_singleton.1 he
    refine ⟨compileBeside.2, compileScaled.2, "im1b1 * 20", .u8, ?_, .refl⟩
    exact Prod.ext (eq_ok_valueOf _) rfl

theorem ofCompiled_eq_plan : Plan.ofCompiled catalog [beside, scaled] = .ok plan :=
  eq_ok_valueOf _

theorem inputs_catalog : catalog.inputs = [source] := by
  rw [catalog, compileScaled, Catalog.inputs_compile, compileBeside, Catalog.inputs_compile]
  rfl

end Sample

/-- A pass over the lower row of the sample writes twenty times its cells, clamped. -/
theorem Plan.evaluate_lowerRow :
    let region : Region := ⟨1, 0, 1, 2⟩
    let p := Sample.plan.evaluate region (.fresh Sample.plan)
    Sample.catalog.Reachable ∧ (∀ e ∈ [Sample.beside, Sample.scaled], e.IsOf Sample.catalog) ∧
      ofCompiled Sample.catalog [Sample.beside, Sample.scaled] = .ok Sample.plan ∧
      (∀ s, Sample.catalog.inputs.head? = some s →
        region.checkWithin s.raster.rows s.raster.cols = .ok ()) ∧
      ∃ b, p.buffers[1]? = some b ∧ ∀ col < 2,
        (Sample.scaled.samplesAt Sample.catalog 1 col).1[0]? = some (b.get 0 0 col) := by
  intro region p
  have hregion : ∀ s, Sample.catalog.inputs.head? = some s →
      region.checkWithin s.raster.rows s.raster.cols = .ok () := by
    intro s hs
    rw [Sample.inputs_catalog] at hs
    cases hs
    rfl
  have hpass := evaluate_eq_samplesAt Sample.catalog_reachable Sample.isOf_catalog
    Sample.ofCompiled_eq_plan hregion
  refine ⟨Sample.catalog_reachable, Sample.isOf_catalog, Sample.ofCompiled_eq_plan, hregion, ?_⟩
  obtain ⟨b, hb, -, -, hget⟩ := (hpass.2.2 1 Sample.scaled rfl).1
  refine ⟨b, hb, fun col hcol => ?_⟩
  have hbands : 0 < Sample.scaled.output.bands := by decide +kernel
  have hsample := hget 0 0 col hbands Nat.one_pos hcol
  rwa [Nat.add_zero, Nat.zero_add] at hsample

end MapAlgebra
