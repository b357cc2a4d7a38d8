import MapAlgebra.Proofs.Session.Reachable

/-!
# Admission of passes

A pass over a region is refused if there is no input, if there is no formula, or if the region
leaves the first input; whatever can go wrong further on does not. Main statement:
**`Session.Reachable.admission`**.

The places further on where the program can fail are the compilation of formulas that have gone
stale, the statistics of bands, which a plan takes, and the writes of buffers into outputs.
-/

namespace MapAlgebra

/-- What the output of a formula over a region is like. -/
structure ExpressionOutput.Fits (o : ExpressionOutput) (region : Region) (e : Compiled) : Prop where
  /-- It has the text of the formula. -/
  source : o.source = e.source
  /-- It holds samples of the type that the formula writes. -/
  pixelType : o.raster.pixelType = e.output.pixelType
  /-- It has the bands that the formula writes. -/
  bands : o.raster.bands = e.output.bands
  /-- It has the rows of the region. -/
  rows : o.raster.rows = region.rows
  /-- It has the columns of the region. -/
  cols : o.raster.cols = region.cols

namespace Session

variable {s : Session} {region : Region} {first : Source}

theorem OutputHolds.fits {c : Catalog} {transform : Transform Float} {o : ExpressionOutput}
    {e : Compiled} (h : OutputHolds c region transform o e) : o.Fits region e where
  source := h.source
  pixelType := h.raster.sameGrid.pixelType
  bands := h.raster.sameGrid.bands
  rows := h.raster.sameGrid.rows
  cols := h.raster.sameGrid.cols

/-! ### What a pass is refused for -/

theorem checkPass_of_no_input (hinputs : s.catalog.inputs = []) :
    s.checkPass region = .error (.configuration .noInput) := by
  unfold checkPass firstInput
  rw [hinputs]
  rfl

theorem checkPass_of_no_expression (hfirst : s.catalog.inputs.head? = some first)
    (hexpressions : s.expressions = []) :
    s.checkPass region = .error (.configuration .noExpression) := by
  obtain ⟨rest, hinputs⟩ := List.head?_eq_some_iff.1 hfirst
  unfold checkPass firstInput
  rw [hinputs, hexpressions]
  rfl

theorem checkPass_of_outside (hfirst : s.catalog.inputs.head? = some first)
    (hexpressions : s.expressions ≠ [])
    (houtside : first.raster.rows < region.rowOffset + region.rows ∨
      first.raster.cols < region.colOffset + region.cols) :
    s.checkPass region = .error (.raster (.indexOutOfBounds (region.rowOffset + region.rows)
      (region.colOffset + region.cols) first.raster.rows first.raster.cols)) := by
  obtain ⟨rest, hinputs⟩ := List.head?_eq_some_iff.1 hfirst
  have hnonempty : s.expressions.isEmpty = false := List.isEmpty_eq_false_iff.2 hexpressions
  have hwithin : region.checkWithin first.raster.rows first.raster.cols = .error _ :=
    if_pos houtside
  unfold checkPass firstInput
  rw [hinputs, hnonempty]
  simp only [bind, Except.bind, hwithin]
  rfl

/-! ### What does not go wrong -/

/-- The statistics of a band that a variable asks for can be taken. -/
theorem Settled.exists_statistics (h : s.Settled) {slot image band : Nat} {v : Variable}
    {which : Statistic} (hslot : s.catalog.slots[slot]? = some v)
    (hkind : v.kind = .statistic image band which) :
    ∃ source statistics, s.catalog.inputs[image]? = some source ∧
      source.statistics band = .ok statistics := by
  have hrange := h.catalog.wellFormed.inRange hslot
  rw [hkind] at hrange
  obtain ⟨source, hsource, hband⟩ := hrange
  obtain ⟨statistics, hstatistics⟩ := source.exists_statistics hband
  exact ⟨source, statistics, hsource, hstatistics⟩

/-- The formulas that have been compiled again have a plan, and however a region inside the first
input is cut, the buffers of its parts are written without a fault. -/
theorem Settled.exists_runParts (h : s.Settled) : ∃ plan,
    Plan.ofCompiled s.recompileStale.2.catalog s.recompileStale.2.expressions = .ok plan ∧
      ∀ region transform, s.checkPass region = .ok transform →
        ∀ (k : Coordinator) (workers : Nat), ∃ out,
          Coordinator.runParts plan region transform (k.parts region workers) = .ok out := by
  obtain ⟨plan, hplan⟩ := h.catalog.wellFormed.exists_plan s.expressions
  refine ⟨plan, ?_, fun region transform hcheck k workers => ?_⟩
  · rw [h.recompileStale]
    exact (Plan.ofCompiled_renewed s.catalog s.expressions).trans hplan
  · obtain ⟨out, hout, -⟩ := Coordinator.runParts_holds hplan (h.inGrids_of_checkPass hcheck)
      transform (k.covers_parts region workers)
    exact ⟨out, hout⟩

/-- **Admission**: in a reachable session whose next pass is not called off, a pass over a region is
refused if there is no input, else if there is no formula, else if the region leaves the first
input, and it succeeds in all other cases, with one output for each formula, in order, of the type
and the bands that the formula writes and of the extent of the region. Compiling the stale formulas
again succeeds, and so does taking the statistics that variables ask for, planning the formulas, and
writing the buffers of the parts of the region. -/
theorem Reachable.admission (h : s.Reachable) (hcancelled : s.isCancelled = false) (cores : Nat)
    (region : Region) :
    (s.catalog.inputs = [] →
      (s.runRegion cores region).1 = .error (.configuration .noInput)) ∧
    (∀ first, s.catalog.inputs.head? = some first →
      (s.expressions = [] →
        (s.runRegion cores region).1 = .error (.configuration .noExpression)) ∧
      (s.expressions ≠ [] →
        (first.raster.rows < region.rowOffset + region.rows ∨
            first.raster.cols < region.colOffset + region.cols →
          (s.runRegion cores region).1 =
            .error (.raster (.indexOutOfBounds (region.rowOffset + region.rows)
              (region.colOffset + region.cols) first.raster.rows first.raster.cols))) ∧
        (region.rowOffset + region.rows ≤ first.raster.rows →
          region.colOffset + region.cols ≤ first.raster.cols →
          ∃ outs, (s.runRegion cores region).1 = .ok outs ∧
            List.Forall₂ (fun o e => o.Fits region e) outs s.expressions))) ∧
    s.recompileStale.1 = .ok () ∧
    (∀ (slot : Nat) (v : Variable) (image band : Nat) (which : Statistic),
      s.catalog.slots[slot]? = some v → v.kind = .statistic image band which →
        ∃ source statistics, s.catalog.inputs[image]? = some source ∧
          source.statistics band = .ok statistics) ∧
    ∃ plan, Plan.ofCompiled s.recompileStale.2.catalog s.recompileStale.2.expressions = .ok plan ∧
      ∀ transform, s.checkPass region = .ok transform → ∀ (k : Coordinator) (workers : Nat),
        ∃ out, Coordinator.runParts plan region transform (k.parts region workers) = .ok out := by
  have hsettled := h.settled
  have hrefused : ∀ {e : Failure}, s.checkPass region = .error e →
      (s.runRegion cores region).1 = .error e := fun hcheck =>
    congrArg Prod.fst (runRegion_of_error hcheck cores)
  obtain ⟨plan, hplan, hparts⟩ := hsettled.exists_runParts
  refine ⟨fun hinputs => hrefused (checkPass_of_no_input hinputs), fun first hfirst => ⟨?_, ?_⟩,
    congrArg Prod.fst hsettled.recompileStale, ?_, plan, hplan, hparts region⟩
  · exact fun hexpressions => hrefused (checkPass_of_no_expression hfirst hexpressions)
  · intro hexpressions
    refine ⟨fun houtside => hrefused (checkPass_of_outside hfirst hexpressions houtside),
      fun hrows hcols => ?_⟩
    have hcheck : s.checkPass region = .ok first.raster.transform := checkPass_eq_ok_iff.2
      ⟨first, hfirst, hexpressions, Region.checkWithin_eq_ok_iff.2 ⟨hrows, hcols⟩, rfl⟩
    obtain ⟨outs, hrun, houts⟩ := hsettled.runRegion_holds hcancelled hcheck cores
    exact ⟨outs, congrArg Prod.fst hrun, houts.imp fun _ _ hholds => hholds.fits⟩
  · exact fun slot v image band which hslot hkind => hsettled.exists_statistics hslot hkind

/-- The right column of the sample is let begin, and a region below it is not. -/
theorem runRegion_inside_and_outside :
    Sample.session.Reachable ∧ Sample.session.isCancelled = false ∧
      (∃ outs, (Sample.session.runRegion 2 ⟨0, 1, 2, 1⟩).1 = .ok outs ∧
        outs.length = Sample.session.expressions.length) ∧
      (Sample.session.runRegion 2 ⟨2, 0, 1, 1⟩).1 =
        .error (.raster (.indexOutOfBounds 3 1 2 2)) := by
  have hfirst := Sample.head?_inputs_session
  have hadmission := Sample.session_reachable.admission Sample.isCancelled_session 2
  obtain ⟨-, hpasses, -⟩ := hadmission ⟨0, 1, 2, 1⟩
  obtain ⟨-, hpasses', -⟩ := hadmission ⟨2, 0, 1, 1⟩
  obtain ⟨outs, hrun, houts⟩ := ((hpasses _ hfirst).2 Sample.expressions_session_ne_nil).2
    (by decide +kernel) (by decide +kernel)
  have hrefused := ((hpasses' _ hfirst).2 Sample.expressions_session_ne_nil).1
    (Or.inl (by decide +kernel))
  exact ⟨Sample.session_reachable, Sample.isCancelled_session, ⟨outs, hrun, houts.length_eq⟩,
    hrefused⟩

end Session

end MapAlgebra
