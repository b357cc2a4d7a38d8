import MapAlgebra.Proofs.Catalog.Representation
import MapAlgebra.Proofs.Catalog.Settled
import MapAlgebra.Proofs.Pass.Partition
import MapAlgebra.Session

/-!
# Reachable sessions

The sessions that registrations, declarations, compilations, requests to call off a pass and passes
lead to (`Session.Reachable`). All formulas of such a session are settled in its catalog
(**`Session.Reachable.settled`**), so when a pass compiles them again it gets them back, and a pass
over a region inside the inputs gives, for each formula, what the formula gives at the cells of the
region (**`Session.Reachable.runRegion_holds`**).
-/

namespace MapAlgebra

/-! ### Compiled formulas -/

namespace Compiled

variable {e : Compiled} {c : Catalog}

/-- A settled formula, compiled again, has been compiled on the way to the catalog. -/
theorem Settled.isOf_renewed (h : e.Settled c) : (e.renewed c).IsOf c :=
  ⟨c, c, e.source, e.output.pixelType, h.compile, .refl⟩

/-- What a pass makes of the slots of a cell is what the interpreter gives. -/
theorem Settled.samples_slotsAt (h : e.Settled c) (row col : Nat) :
    e.task.samples (c.slotsAt row col) = e.samplesAt c row col :=
  Compiled.samples_slotsAt h.isOf_renewed row col

end Compiled

/-- A plan does not ask which catalog a formula was compiled against. -/
theorem Plan.ofCompiled_renewed (c : Catalog) (es : List Compiled) :
    ofCompiled c (es.map (·.renewed c)) = ofCompiled c es := by
  unfold ofCompiled referenced
  simp only [List.map_map, List.any_map]
  rfl

namespace Session

variable {s : Session}

/-! ### Reachability -/

/-- The sessions that can come about. An operation that is refused leaves the session, but for
windows that a compilation has asked for. -/
inductive Reachable : Session → Prop where
  /-- A session that has just been opened. -/
  | initial (params : Params) : Reachable (.initial params)
  /-- An input has been registered. -/
  | register {s s' : Session} {source : Source} {alias? : Option String} {image : Nat} :
      Reachable s → s.register source alias? = .ok (image, s') → Reachable s'
  /-- A number has been declared. -/
  | declareConstant {s s' : Session} {name : String} {x : Float} :
      Reachable s → s.declareConstant name x = .ok s' → Reachable s'
  /-- A matrix has been declared. -/
  | declareMatrix {s s' : Session} {name : String} {rows cols : Nat} {values : List Float} :
      Reachable s → s.declareMatrix name rows cols values = .ok s' → Reachable s'
  /-- A matrix has been declared as a text. -/
  | declareMatrixText {s s' : Session} {name text : String} :
      Reachable s → s.declareMatrixText name text = .ok s' → Reachable s'
  /-- A formula has been compiled or refused. -/
  | compileTyped {s : Session} (text : String) (t : PixelType) :
      Reachable s → Reachable (s.compileTyped text t).2
  /-- The next pass has been called off. -/
  | cancel {s : Session} : Reachable s → Reachable s.cancel
  /-- A pass over a region has been run or refused. -/
  | runRegion {s : Session} (cores : Nat) (region : Region) :
      Reachable s → Reachable (s.runRegion cores region).2

theorem Reachable.compile (h : s.Reachable) (text : String) : (s.compile text).2.Reachable :=
  h.compileTyped text s.params.outputType

/-- A pass over the whole of the inputs has been run or refused. -/
theorem Reachable.run (h : s.Reachable) (cores : Nat) : (s.run cores).2.Reachable := by
  unfold Session.run
  split
  · exact h
  · exact h.runRegion cores _

/-- A compilation leaves the catalog that the compilation against the catalog of the session
leaves, whether the formula is refused or not. -/
@[simp] theorem catalog_compileTyped (s : Session) (text : String) (t : PixelType) :
    (s.compileTyped text t).2.catalog = (s.catalog.compile text t).2 := by
  unfold compileTyped
  split <;> simp [*]

/-- A compilation that succeeds adds the formula behind the others and answers its place. -/
theorem compileTyped_of_ok {text : String} {t : PixelType} {e : Compiled}
    (h : (s.catalog.compile text t).1 = .ok e) :
    s.compileTyped text t = (.ok s.expressions.length,
      { s with catalog := (s.catalog.compile text t).2, expressions := s.expressions ++ [e] }) := by
  unfold compileTyped
  cases hcompile : s.catalog.compile text t with
  | mk result c =>
    rw [hcompile] at h
    obtain rfl : result = .ok e := h
    rfl

/-- A compilation that is refused leaves the formulas. -/
theorem compileTyped_of_error {text : String} {t : PixelType} {e : Failure}
    (h : (s.catalog.compile text t).1 = .error e) :
    s.compileTyped text t = (.error e, { s with catalog := (s.catalog.compile text t).2 }) := by
  unfold compileTyped
  cases hcompile : s.catalog.compile text t with
  | mk result c =>
    rw [hcompile] at h
    obtain rfl : result = .error e := h
    rfl

/-- Formulas keep their places when another one is compiled. -/
theorem expressions_compileTyped (s : Session) (text : String) (t : PixelType) :
    s.expressions <+: (s.compileTyped text t).2.expressions := by
  cases hcompile : (s.catalog.compile text t).1 with
  | error e =>
    have hsame : (s.compileTyped text t).2.expressions = s.expressions := by
      rw [compileTyped_of_error hcompile]
    exact hsame.symm ▸ List.prefix_refl s.expressions
  | ok e =>
    rw [compileTyped_of_ok hcompile]
    exact List.prefix_append _ _

/-! ### Passes -/

/-- A pass that is not let begin leaves the session. -/
theorem runRegion_of_error {region : Region} {e : Failure} (hcheck : s.checkPass region = .error e)
    (cores : Nat) : s.runRegion cores region = (.error e, s) := by
  unfold runRegion
  rw [hcheck]

/-- The catalog of a session can come about, and its formulas are settled in it. -/
structure Settled (s : Session) : Prop where
  /-- The catalog can come about. -/
  catalog : s.catalog.Reachable
  /-- The formulas are settled. -/
  expressions : ∀ e ∈ s.expressions, e.Settled s.catalog

/-- A session whose formulas have been compiled again. -/
def renewed (s : Session) : Session :=
  { s with expressions := s.expressions.map (·.renewed s.catalog) }

/-- Settled formulas are compiled again as they are. -/
theorem recompile_eq {c : Catalog} : ∀ {es : List Compiled}, (∀ e ∈ es, e.Settled c) →
    recompile c es = (.ok (), c, es.map (·.renewed c))
  | [], _ => rfl
  | e :: es, h => by
    obtain ⟨he, hes⟩ := List.forall_mem_cons.1 h
    unfold recompile
    split
    · rw [he.compile]
      dsimp only
      rw [recompile_eq hes]
      rfl
    · next hstale =>
      have hsame : e.renewed c = e := by
        have hgeneration : e.generation = c.generation := by simpa [Compiled.isStale] using hstale
        unfold Compiled.renewed
        rw [← hgeneration]
      rw [recompile_eq hes, List.map_cons, hsame]

theorem Settled.recompileStale (h : s.Settled) : s.recompileStale = (.ok (), s.renewed) := by
  unfold Session.recompileStale
  rw [recompile_eq h.expressions]
  rfl

/-- What a pass does that is let begin: the formulas are compiled again as they are, the outputs are
those of the plan of the formulas, and a request to call off a pass is spent. -/
theorem Settled.runRegion_eq (h : s.Settled) {region : Region} {transform : Transform Float}
    (hcheck : s.checkPass region = .ok transform) (cores : Nat) :
    ∃ plan, Plan.ofCompiled s.catalog s.expressions = .ok plan ∧
      s.runRegion cores region =
        ((((Coordinator.ofParams s.params s.isCancelled).run cores plan region transform).1).map
          (outputsOf s.expressions), { s.renewed with isCancelled := false }) := by
  obtain ⟨plan, hplan⟩ := h.catalog.wellFormed.exists_plan s.expressions
  have hrenewed : Plan.ofCompiled s.renewed.catalog s.renewed.expressions = .ok plan :=
    (Plan.ofCompiled_renewed s.catalog s.expressions).trans hplan
  have hsources : outputsOf s.renewed.expressions = outputsOf s.expressions := by
    funext out
    unfold outputsOf renewed
    rw [List.zip_map_left, List.map_map]
    rfl
  refine ⟨plan, hplan, ?_⟩
  unfold Session.runRegion
  rw [hcheck]
  dsimp only
  rw [h.recompileStale]
  dsimp only
  unfold runCompiled
  rw [hrenewed, hsources]
  rfl

/-- A pass is let begin over the same regions when the formulas have been compiled again. -/
theorem checkPass_renewed (s : Session) (isCancelled : Bool) (region : Region) :
    ({ s.renewed with isCancelled } : Session).checkPass region = s.checkPass region := by
  unfold checkPass firstInput renewed
  dsimp only
  rw [List.isEmpty_map]

/-- A pass leaves the session, or its formulas have been compiled again and the request to call it
off is spent. -/
theorem Settled.runRegion_snd (h : s.Settled) (cores : Nat) (region : Region) :
    (s.runRegion cores region).2 = s ∨
      (s.runRegion cores region).2 = { s.renewed with isCancelled := false } := by
  cases hcheck : s.checkPass region with
  | error e =>
    rw [runRegion_of_error hcheck]
    exact Or.inl rfl
  | ok transform =>
    obtain ⟨plan, -, hrun⟩ := h.runRegion_eq hcheck cores
    rw [hrun]
    exact Or.inr rfl

/-- The formulas of a session stay settled when the catalog goes on. -/
theorem Settled.goOn (h : s.Settled) {c : Catalog} (hlater : s.catalog.LeadsTo c) :
    Settled { s with catalog := c } :=
  ⟨h.catalog.trans hlater, fun e he =>
    (h.expressions e he).grows (h.catalog.wellFormed.leadsTo hlater).2⟩

theorem Settled.compileTyped (h : s.Settled) (text : String) (t : PixelType) :
    (s.compileTyped text t).2.Settled := by
  have hgone := h.goOn (.compile text t .refl)
  cases hcompile : (s.catalog.compile text t).1 with
  | error e =>
    rw [compileTyped_of_error hcompile]
    exact hgone
  | ok e =>
    rw [compileTyped_of_ok hcompile]
    have hnew : e.Settled (s.catalog.compile text t).2 :=
      Compiled.settled_of_compile h.catalog.wellFormed (Prod.ext hcompile rfl)
    exact ⟨hgone.catalog, List.forall_mem_append.2
      ⟨hgone.expressions, List.forall_mem_singleton.2 hnew⟩⟩

theorem Settled.runRegion (h : s.Settled) (cores : Nat) (region : Region) :
    (s.runRegion cores region).2.Settled := by
  rcases h.runRegion_snd cores region with hsame | hdone
  · rwa [hsame]
  · rw [hdone]
    refine ⟨h.catalog, fun e he => ?_⟩
    obtain ⟨e', he', rfl⟩ := List.mem_map.1 he
    exact h.expressions e' he'

/-- **Sessions**: the catalog of a reachable session is reachable, and its formulas are settled. -/
theorem Reachable.settled (h : s.Reachable) : s.Settled := by
  induction h with
  | initial => exact ⟨.refl, List.forall_mem_nil _⟩
  | register _ hstep ih =>
    obtain ⟨⟨image, c⟩, hcatalog, h⟩ := bind_eq_ok_iff.1 hstep
    cases h
    exact ih.goOn (.register .refl hcatalog)
  | declareConstant _ hstep ih =>
    obtain ⟨c, hcatalog, h⟩ := bind_eq_ok_iff.1 hstep
    cases h
    exact ih.goOn (.declareConstant .refl hcatalog)
  | declareMatrix _ hstep ih =>
    obtain ⟨c, hcatalog, h⟩ := bind_eq_ok_iff.1 hstep
    cases h
    exact ih.goOn (.declareMatrix .refl hcatalog)
  | declareMatrixText _ hstep ih =>
    obtain ⟨c, hcatalog, h⟩ := bind_eq_ok_iff.1 hstep
    cases h
    exact ih.goOn (.declareMatrixText .refl hcatalog)
  | compileTyped text t _ ih => exact ih.compileTyped text t
  | cancel _ ih => exact ⟨ih.catalog, ih.expressions⟩
  | runRegion cores region _ ih => exact ih.runRegion cores region

/-! ### Outputs -/

/-- What the output of a formula holds after a pass over a region. -/
structure OutputHolds (c : Catalog) (region : Region) (transform : Transform Float)
    (o : ExpressionOutput) (e : Compiled) : Prop where
  /-- It has the text of the formula. -/
  source : o.source = e.source
  /-- Its raster holds what the formula gives at the cells of the region. -/
  raster : o.raster.Holds c region transform region.gridCells e.task
  /-- Its counts are those of the cells of the region. -/
  diagnostics : o.diagnostics =
    .sum (region.gridCells.map fun cell => (e.task.samples (c.slotsAt cell.1 cell.2)).2)

/-- The outputs of a pass, each with the text of its formula. -/
theorem outputHolds_outputsOf {c : Catalog} {plan : Plan} {region : Region}
    {transform : Transform Float} {out : PassOutput} {es : List Compiled}
    (hout : out.Holds c plan region transform region.gridCells)
    (htasks : plan.tasks = es.map Compiled.task) :
    List.Forall₂ (OutputHolds c region transform) (outputsOf es out) es := by
  obtain ⟨rasters, diagnostics⟩ := out
  obtain ⟨hrasters, hdiagnostics⟩ := hout
  dsimp only at hrasters hdiagnostics
  rw [htasks] at hrasters hdiagnostics
  rw [List.map_map] at hdiagnostics
  subst hdiagnostics
  unfold outputsOf
  dsimp only
  rw [List.forall₂_map_right_iff] at hrasters
  clear htasks
  induction hrasters with
  | nil => exact .nil
  | cons hraster _ ih => exact .cons ⟨rfl, hraster, rfl⟩ ih

/-- A pass is let begin if there is an input and a formula, and the region lies inside the first
input. -/
theorem checkPass_eq_ok_iff {region : Region} {transform : Transform Float} :
    s.checkPass region = .ok transform ↔
      ∃ first, s.catalog.inputs.head? = some first ∧ s.expressions ≠ [] ∧
        region.checkWithin first.raster.rows first.raster.cols = .ok () ∧
        first.raster.transform = transform := by
  unfold checkPass firstInput
  cases s.catalog.inputs with
  | nil => exact ⟨fun h => (nomatch h), fun ⟨_, h, _⟩ => nomatch h⟩
  | cons first rest =>
    simp only [bind, Except.bind, List.head?_cons, Option.some.injEq]
    cases hexpressions : s.expressions with
    | nil => exact ⟨fun h => (nomatch h), fun ⟨_, _, h, _⟩ => absurd rfl h⟩
    | cons e es =>
      cases hwithin : region.checkWithin first.raster.rows first.raster.cols with
      | error fault =>
        refine ⟨fun h => (nomatch h), ?_⟩
        rintro ⟨_, rfl, -, h, -⟩
        rw [hwithin] at h
        cases h
      | ok =>
        constructor
        · intro h
          exact ⟨first, rfl, List.cons_ne_nil _ _, hwithin, Except.ok.inj h⟩
        · rintro ⟨_, rfl, -, -, rfl⟩
          rfl

/-- A region that a pass is let begin over lies inside all inputs. -/
theorem Settled.inGrids_of_checkPass (h : s.Settled) {region : Region} {transform : Transform Float}
    (hcheck : s.checkPass region = .ok transform) : region.InGrids s.catalog.inputs := by
  obtain ⟨first, hfirst, -, hwithin, -⟩ := checkPass_eq_ok_iff.1 hcheck
  refine h.catalog.inGrids fun other hother => ?_
  rw [hfirst] at hother
  cases hother
  exact hwithin

/-- **Passes**: a pass over a region, if it is not refused and not called off, gives an output for
each formula, which holds what the formula gives at the cells of the region. -/
theorem Settled.runRegion_holds (h : s.Settled) (hcancelled : s.isCancelled = false)
    {region : Region} {transform : Transform Float} (hcheck : s.checkPass region = .ok transform)
    (cores : Nat) :
    ∃ outs, s.runRegion cores region = (.ok outs, { s.renewed with isCancelled := false }) ∧
      List.Forall₂ (OutputHolds s.catalog region transform) outs s.expressions := by
  obtain ⟨plan, hplan, hrun⟩ := h.runRegion_eq hcheck cores
  obtain ⟨out, hout, hholds⟩ := Coordinator.run_holds hplan (h.inGrids_of_checkPass hcheck)
    transform (k := .ofParams s.params s.isCancelled) hcancelled cores
  rw [hout] at hrun
  exact ⟨_, hrun, outputHolds_outputsOf hholds (Plan.renews_of_ofCompiled hplan).2⟩

/-- What an output holds does not depend on when its formula was compiled again. -/
theorem outputHolds_renewed {c : Catalog} {region : Region} {transform : Transform Float}
    {o : ExpressionOutput} {e : Compiled} :
    OutputHolds c region transform o (e.renewed c) ↔ OutputHolds c region transform o e :=
  ⟨fun h => ⟨h.source, h.raster, h.diagnostics⟩, fun h => ⟨h.source, h.raster, h.diagnostics⟩⟩

/-- An output is settled by what it holds. -/
theorem OutputHolds.unique {c : Catalog} {region : Region} {transform : Transform Float}
    {o o' : ExpressionOutput} {e : Compiled} (h : OutputHolds c region transform o e)
    (h' : OutputHolds c region transform o' e) : o = o' := by
  have hsource := h.source.trans h'.source.symm
  have hraster := h.raster.unique h'.raster
  have hdiagnostics := h.diagnostics.trans h'.diagnostics.symm
  cases o
  cases o'
  rw [ExpressionOutput.mk.injEq]
  exact ⟨hsource, hraster, hdiagnostics⟩

theorem OutputHolds.unique_forall₂ {c : Catalog} {region : Region} {transform : Transform Float}
    {outs outs' : List ExpressionOutput} {es : List Compiled}
    (h : List.Forall₂ (OutputHolds c region transform) outs es)
    (h' : List.Forall₂ (OutputHolds c region transform) outs' es) : outs = outs' :=
  List.left_unique_forall₂' (fun _ _ _ ho ho' => ho.unique ho') h h'

/-- A pass that is let begin, called off or not, leaves a session in which a pass over the region
gives what the formulas give. -/
theorem Settled.runRegion_next (h : s.Settled) {region : Region} {transform : Transform Float}
    (hcheck : s.checkPass region = .ok transform) (cores cores' : Nat) :
    ∃ outs, ((s.runRegion cores region).2.runRegion cores' region).1 = .ok outs ∧
      List.Forall₂ (OutputHolds s.catalog region transform) outs s.expressions := by
  obtain ⟨plan, -, hrun⟩ := h.runRegion_eq hcheck cores
  have hnext := h.runRegion cores region
  rw [hrun] at hnext ⊢
  -- the request to call off a pass, if there was one, is spent
  obtain ⟨outs, hrun', houts⟩ := hnext.runRegion_holds rfl
    ((checkPass_renewed s false region).trans hcheck) cores'
  exact ⟨outs, congrArg Prod.fst hrun',
    (List.forall₂_map_right_iff.1 houts).imp fun _ _ => outputHolds_renewed.1⟩

/-- Whether a pass has been called off and has a part to begin. -/
def stops (s : Session) (cores : Nat) (region : Region) : Bool :=
  s.isCancelled && !((Coordinator.ofParams s.params s.isCancelled).parts region
    (s.params.mode.workers cores)).isEmpty

/-- A pass that is let begin and stops says so. -/
theorem Settled.runRegion_of_stops (h : s.Settled) {region : Region} {transform : Transform Float}
    (hcheck : s.checkPass region = .ok transform) {cores : Nat}
    (hstops : s.stops cores region = true) : (s.runRegion cores region).1 = .error .cancelled := by
  obtain ⟨plan, -, hrun⟩ := h.runRegion_eq hcheck cores
  have hcancelled : ((Coordinator.ofParams s.params s.isCancelled).run cores plan region
      transform).1 = .error .cancelled := if_pos hstops
  rw [hrun, hcancelled]
  rfl

/-- A pass that is let begin and does not stop gives an output for each formula, though it may have
been called off: it has no part to begin then. -/
theorem Settled.runRegion_of_not_stops (h : s.Settled) {region : Region}
    {transform : Transform Float} (hcheck : s.checkPass region = .ok transform) {cores : Nat}
    (hstops : s.stops cores region = false) :
    ∃ outs, (s.runRegion cores region).1 = .ok outs ∧
      List.Forall₂ (OutputHolds s.catalog region transform) outs s.expressions := by
  obtain ⟨plan, hplan, hrun⟩ := h.runRegion_eq hcheck cores
  obtain ⟨out, hout, hholds⟩ := Coordinator.run_holds hplan (h.inGrids_of_checkPass hcheck)
    transform (k := .ofParams s.params false) rfl cores
  have hgo : ((Coordinator.ofParams s.params s.isCancelled).run cores plan region transform).1 =
      ((Coordinator.ofParams s.params false).run cores plan region transform).1 :=
    if_neg fun hyes => Bool.false_ne_true (hstops.symm.trans hyes)
  rw [hgo, hout] at hrun
  exact ⟨_, congrArg Prod.fst hrun,
    outputHolds_outputsOf hholds (Plan.renews_of_ofCompiled hplan).2⟩

/-- A pass that gives outputs was let begin, and what it gives holds what the formulas give. -/
theorem Settled.holds_of_runRegion (h : s.Settled) {cores : Nat} {region : Region}
    {outs : List ExpressionOutput} (hrun : (s.runRegion cores region).1 = .ok outs) :
    ∃ transform, List.Forall₂ (OutputHolds s.catalog region transform) outs s.expressions := by
  cases hcheck : s.checkPass region with
  | error e =>
    rw [runRegion_of_error hcheck] at hrun
    cases hrun
  | ok transform =>
    cases hstops : s.stops cores region with
    | true =>
      rw [h.runRegion_of_stops hcheck hstops] at hrun
      cases hrun
    | false =>
      obtain ⟨outs', hrun', houts⟩ := h.runRegion_of_not_stops hcheck hstops
      rw [hrun] at hrun'
      cases hrun'
      exact ⟨transform, houts⟩

/-! ### A session -/

namespace Sample

/-- The session of two by two cells. -/
def registered : Nat × Session :=
  valueOf ((initial .standard).register MapAlgebra.Sample.source none) (by decide +kernel)

/-- The session in which two formulas have been compiled. The second one asks for a window, so the
catalog has moved past the first one. -/
def session : Session :=
  ((registered.2.compileTyped "im1b1 * 20" .u8).2.compileTyped "im1b1N3x1" .f32).2

theorem session_reachable : session.Reachable := by
  have hregister : (initial .standard).register MapAlgebra.Sample.source none = .ok registered :=
    eq_ok_valueOf _
  exact .compileTyped _ _ (.compileTyped _ _ (.register (.initial _) hregister))

theorem isCancelled_session : session.isCancelled = false := by decide +kernel

theorem inputs_session : session.catalog.inputs = [MapAlgebra.Sample.source] := by
  simp only [session, catalog_compileTyped, Catalog.inputs_compile]
  rfl

theorem head?_inputs_session :
    session.catalog.inputs.head? = some MapAlgebra.Sample.source := by
  rw [inputs_session]
  rfl

theorem expressions_session_ne_nil : session.expressions ≠ [] := by
  have hnonempty : session.expressions.isEmpty = false := by decide +kernel
  exact List.isEmpty_eq_false_iff.1 hnonempty

end Sample

end Session

end MapAlgebra
