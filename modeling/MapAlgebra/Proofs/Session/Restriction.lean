import MapAlgebra.Proofs.Session.Reachable

/-!
# Passes over regions

A pass over a region gives the part of the pass over the whole inputs that lies in the region, band
by band and cell by cell. In particular windows are read across the border of the region, and
statistics are those of the whole inputs. When regions share out the inputs, the counts of their
passes add up to those of the pass over the whole. Main statement:
**`Session.Reachable.runRegion_restricts`**.

The two passes are not compared with each other, as neither their parts nor their caches have
anything to do with one another: both are compared with what the formulas give at the cells of the
grid (`Session.Settled.runRegion_holds`).
-/

namespace MapAlgebra

namespace Session

/-! ### Parts of an output -/

/-- An output over a region is the part of another output that lies in the region, and its samples
are those that the formula gives at the cells of the region. -/
structure Restricts (c : Catalog) (e : Compiled) (region : Region)
    (o whole : ExpressionOutput) : Prop where
  /-- Both are outputs of the formula. -/
  source : o.source = e.source ∧ whole.source = e.source
  /-- Both have the type of the formula. -/
  pixelType : o.raster.pixelType = e.output.pixelType ∧ whole.raster.pixelType = e.output.pixelType
  /-- Both have the bands of the formula. -/
  bands : o.raster.bands = e.output.bands ∧ whole.raster.bands = e.output.bands
  /-- It has the rows of the region. -/
  rows : o.raster.rows = region.rows
  /-- It has the columns of the region. -/
  cols : o.raster.cols = region.cols
  /-- At a cell of the region it holds what the other one holds there, which is what the formula
  gives on the values that the variables have at the cell of the whole grid. -/
  sample : ∀ band row col, band < e.output.bands → row < region.rows → col < region.cols →
    ∃ x, (e.samplesAt c (region.rowOffset + row) (region.colOffset + col)).1[band]? = some x ∧
      o.raster.get? band row col = some (e.output.pixelType.store x) ∧
      whole.raster.get? band (region.rowOffset + row) (region.colOffset + col) =
        some (e.output.pixelType.store x)

variable {c : Catalog} {region : Region} {transform : Transform Float} {o : ExpressionOutput}
  {e : Compiled}

/-- What an output holds at a cell of its region. -/
theorem OutputHolds.get?_eq (h : OutputHolds c region transform o e) (he : e.Settled c)
    {band row col : Nat} (hband : band < e.output.bands) (hrow : row < region.rows)
    (hcol : col < region.cols) {x : Float}
    (hx : (e.samplesAt c (region.rowOffset + row) (region.colOffset + col)).1[band]? = some x) :
    o.raster.get? band row col = some (e.output.pixelType.store x) := by
  have hinner : (row, col) ∈ region.cells := Region.mem_cells.2 ⟨hrow, hcol⟩
  have hat := h.raster.at?_eq _ (Region.toGrid_mem_gridCells hinner) band hband
  rw [Region.toGrid, Region.place_offset, he.samples_slotsAt, hx] at hat
  exact hat

/-- A formula gives a sample for each of its bands at every cell. -/
theorem exists_sample (he : e.Settled c) (row col : Nat) {band : Nat}
    (hband : band < e.output.bands) : ∃ x, (e.samplesAt c row col).1[band]? = some x := by
  have hlength : (e.samplesAt c row col).1.length = e.output.bands := by
    rw [← he.samples_slotsAt]
    exact e.task.length_samples _
  exact ⟨_, List.getElem?_eq_getElem (hlength.symm ▸ hband)⟩

/-- The output of a pass over a region inside the inputs is the part of the output of the pass over
the whole. -/
theorem OutputHolds.restricts {rows cols : Nat} {whole : ExpressionOutput} (he : e.Settled c)
    (hwithin : region.checkWithin rows cols = .ok ()) (ho : OutputHolds c region transform o e)
    (hwhole : OutputHolds c (.full rows cols) transform whole e) :
    Restricts c e region o whole where
  source := ⟨ho.source, hwhole.source⟩
  pixelType := ⟨ho.raster.sameGrid.pixelType, hwhole.raster.sameGrid.pixelType⟩
  bands := ⟨ho.raster.sameGrid.bands, hwhole.raster.sameGrid.bands⟩
  rows := ho.raster.sameGrid.rows
  cols := ho.raster.sameGrid.cols
  sample := by
    intro band row col hband hrow hcol
    obtain ⟨hrows, hcols⟩ := Region.checkWithin_eq_ok_iff.1 hwithin
    obtain ⟨x, hx⟩ := exists_sample he (region.rowOffset + row) (region.colOffset + col) hband
    refine ⟨x, hx, ho.get?_eq he hband hrow hcol hx, ?_⟩
    refine hwhole.get?_eq he hband ?_ ?_ ?_
    · show region.rowOffset + row < rows
      omega
    · show region.colOffset + col < cols
      omega
    · -- the whole begins at the first cell of the grid
      show (e.samplesAt c (0 + (region.rowOffset + row)) (0 + (region.colOffset + col))).1[band]? =
        some x
      rwa [Nat.zero_add, Nat.zero_add]

/-! ### Passes one after the other -/

/-- Passes over some regions, one after the other. -/
def runEach (s : Session) (cores : Nat) :
    List Region → List (Except Failure (List ExpressionOutput)) × Session
  | [] => ([], s)
  | region :: regions =>
    let (result, s) := s.runRegion cores region
    let (results, s) := runEach s cores regions
    (result :: results, s)

variable {s : Session} {first : Source}

/-- A pass over the whole is one over the region of all cells of the first input. -/
theorem run_eq_runRegion (hfirst : s.catalog.inputs.head? = some first) (cores : Nat) :
    s.run cores = s.runRegion cores (.full first.raster.rows first.raster.cols) := by
  unfold run firstInput
  cases hinputs : s.catalog.inputs with
  | nil =>
    rw [hinputs] at hfirst
    cases hfirst
  | cons other rest =>
    rw [hinputs] at hfirst
    cases hfirst
    rfl

/-- Passes one after the other over regions inside the inputs: each gives what the formulas give at
the cells of its region. -/
theorem Settled.runEach_holds (cores : Nat) : ∀ {s : Session} {regions : List Region}, s.Settled →
    s.isCancelled = false → (∀ region ∈ regions, s.checkPass region = .ok transform) →
    ∃ outss : List (List ExpressionOutput), (s.runEach cores regions).1 = outss.map .ok ∧
      List.Forall₂ (fun outs region =>
        List.Forall₂ (OutputHolds s.catalog region transform) outs s.expressions) outss regions
  | s, [], _, _, _ => ⟨[], rfl, .nil⟩
  | s, region :: regions, h, hcancelled, hcheck => by
    obtain ⟨outs, hrun, houts⟩ :=
      h.runRegion_holds hcancelled (hcheck region List.mem_cons_self) cores
    have hnext : ({ s.renewed with isCancelled := false } : Session).Settled := by
      have := h.runRegion cores region
      rwa [hrun] at this
    have hcheck' : ∀ r ∈ regions,
        ({ s.renewed with isCancelled := false } : Session).checkPass r = .ok transform :=
      fun r hr => (checkPass_renewed s false r).trans (hcheck r (List.mem_cons_of_mem _ hr))
    obtain ⟨outss, hruns, houtss⟩ := hnext.runEach_holds cores rfl hcheck'
    refine ⟨outs :: outss, ?_, .cons houts (houtss.imp fun outs' r houts' => ?_)⟩
    · unfold runEach
      rw [hrun]
      dsimp only
      rw [hruns]
      rfl
    · exact (List.forall₂_map_right_iff.1 houts').imp fun _ _ => outputHolds_renewed.1

/-! ### The pass over the whole -/

/-- The counts that passes over regions give for a formula add up to the counts over the cells of
all regions. -/
theorem diagnostics_of_forall₂ {regions : List Region} {outss : List (List ExpressionOutput)}
    {es : List Compiled} {i : Nat} (he : es[i]? = some e)
    (houtss : List.Forall₂ (fun outs region =>
      List.Forall₂ (OutputHolds c region transform) outs es) outss regions) :
    outss.map (fun outs => outs[i]?.map (·.diagnostics)) =
      (regions.map fun region => .sum (region.gridCells.map fun cell =>
        (e.task.samples (c.slotsAt cell.1 cell.2)).2)).map some := by
  induction houtss with
  | nil => rfl
  | cons houts _ ih =>
    obtain ⟨o, ho, hholds⟩ := exists_getElem?_of_forall₂ houts he
    rw [List.map_cons, List.map_cons, List.map_cons, ih, ho, Option.map_some, hholds.diagnostics]

/-- **Passes over regions**: in a session with an input and a formula whose next pass is not called
off, the pass over the whole inputs succeeds with an output for each formula, in order. The pass
over any region inside the inputs succeeds with the parts of these outputs that lie in the region.
Passes over regions that share out the inputs succeed one after the other, and for each formula
their counts add up to those of the pass over the whole. -/
theorem Reachable.runRegion_restricts (h : s.Reachable) (hcancelled : s.isCancelled = false)
    (hfirst : s.catalog.inputs.head? = some first) (hexpressions : s.expressions ≠ [])
    (cores cores' : Nat) :
    ∃ wholes, (s.run cores).1 = .ok wholes ∧ wholes.length = s.expressions.length ∧
      (∀ region : Region, region.checkWithin first.raster.rows first.raster.cols = .ok () →
        ∃ outs, (s.runRegion cores' region).1 = .ok outs ∧ outs.length = s.expressions.length ∧
          ∀ (i : Nat) (e : Compiled), s.expressions[i]? = some e →
            ∃ o whole, outs[i]? = some o ∧ wholes[i]? = some whole ∧
              Restricts s.catalog e region o whole) ∧
      ∀ regions : List Region,
        (∀ region ∈ regions, region.checkWithin first.raster.rows first.raster.cols = .ok ()) →
        Region.Covers regions (.full first.raster.rows first.raster.cols) →
        ∃ outss : List (List ExpressionOutput), (s.runEach cores' regions).1 = outss.map .ok ∧
          ∀ (i : Nat) (whole : ExpressionOutput), wholes[i]? = some whole →
            ∃ ds, outss.map (fun outs => outs[i]?.map (·.diagnostics)) = ds.map some ∧
              .sum ds = whole.diagnostics := by
  have hsettled := h.settled
  have hcheck : ∀ region : Region,
      region.checkWithin first.raster.rows first.raster.cols = .ok () →
      s.checkPass region = .ok first.raster.transform := fun region hwithin =>
    checkPass_eq_ok_iff.2 ⟨first, hfirst, hexpressions, hwithin, rfl⟩
  have hfull : (Region.full first.raster.rows first.raster.cols).checkWithin first.raster.rows
      first.raster.cols = .ok () :=
    Region.checkWithin_eq_ok_iff.2 ⟨(Nat.zero_add _).le, (Nat.zero_add _).le⟩
  obtain ⟨wholes, hrun, hwholes⟩ := hsettled.runRegion_holds hcancelled (hcheck _ hfull) cores
  rw [← run_eq_runRegion hfirst] at hrun
  refine ⟨wholes, congrArg Prod.fst hrun, hwholes.length_eq, fun region hwithin => ?_,
    fun regions hwithin hcovers => ?_⟩
  · obtain ⟨outs, hrun', houts⟩ :=
      hsettled.runRegion_holds hcancelled (hcheck region hwithin) cores'
    refine ⟨outs, congrArg Prod.fst hrun', houts.length_eq, fun i e he => ?_⟩
    obtain ⟨o, ho, hholds⟩ := exists_getElem?_of_forall₂ houts he
    obtain ⟨whole, hwhole, hwholds⟩ := exists_getElem?_of_forall₂ hwholes he
    have he' : e.Settled s.catalog := hsettled.expressions e (List.mem_of_getElem? he)
    exact ⟨o, whole, ho, hwhole, hholds.restricts he' hwithin hwholds⟩
  · obtain ⟨outss, hruns, houtss⟩ := hsettled.runEach_holds cores' hcancelled fun region hregion =>
      hcheck region (hwithin region hregion)
    refine ⟨outss, hruns, fun i whole hwhole => ?_⟩
    obtain ⟨e, he, hwholds⟩ := exists_getElem?_of_forall₂ hwholes.flip hwhole
    refine ⟨_, diagnostics_of_forall₂ he houtss, ?_⟩
    rw [hwholds.diagnostics, ← Diagnostics.sum_flatMap, ← List.map_flatMap]
    exact Diagnostics.sum_perm (hcovers.map _)

/-- The right column of the sample: the windows of the second formula reach the left column. -/
theorem runRegion_rightColumn :
    let s := Sample.session
    let source := MapAlgebra.Sample.source
    s.Reachable ∧ s.isCancelled = false ∧ s.catalog.inputs.head? = some source ∧
      s.expressions ≠ [] ∧
      ∃ wholes outs, (s.run 1).1 = .ok wholes ∧ (s.runRegion 4 ⟨0, 1, 2, 1⟩).1 = .ok outs ∧
        ∀ (i : Nat) (e : Compiled), s.expressions[i]? = some e →
          ∃ o whole, outs[i]? = some o ∧ wholes[i]? = some whole ∧
            ∀ band < e.output.bands, ∀ row < 2,
              o.raster.get? band row 0 = whole.raster.get? band row 1 := by
  intro s source
  have hfirst : s.catalog.inputs.head? = some source := by rw [Sample.inputs_session]; rfl
  obtain ⟨wholes, hrun, -, hregions, -⟩ := Sample.session_reachable.runRegion_restricts
    Sample.isCancelled_session hfirst Sample.expressions_session_ne_nil 1 4
  obtain ⟨outs, hrun', -, houts⟩ := hregions ⟨0, 1, 2, 1⟩ rfl
  refine ⟨Sample.session_reachable, Sample.isCancelled_session, hfirst,
    Sample.expressions_session_ne_nil, wholes, outs, hrun, hrun', fun i e he => ?_⟩
  obtain ⟨o, whole, ho, hwhole, hrestricts⟩ := houts i e he
  refine ⟨o, whole, ho, hwhole, fun band hband row hrow => ?_⟩
  obtain ⟨x, -, hx, hx'⟩ := hrestricts.sample band row 0 hband hrow Nat.one_pos
  rw [hx, ← hx', Nat.zero_add, Nat.add_zero]

end Session

end MapAlgebra
