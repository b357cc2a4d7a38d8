import MapAlgebra.Proofs.Catalog.Interchange
import MapAlgebra.Proofs.Session.Reachable

/-!
# Formulas do not interfere

What becomes of a formula does not depend on the other formulas of its session: whatever texts have
been compiled or refused before it and are after it, it has the same outcome, and in a pass it gives
the same output and counts. Main statement: **`Session.Reachable.noninterference`**.

Formulas share slots, and windows are given slots as they are asked for, so the same formula may
read other slots in another session. The two runs are compared along the renumbering of its slots
(`Compiled.Renumbers`): compilations leave interchangeable catalogs, and passes give what formulas
give on the values of the variables.
-/

namespace MapAlgebra

open MapAlgebra.Expr

/-! ### Renumbered formulas -/

namespace Compiled.Renumbers

variable {σ : Nat → Nat} {c c' : Catalog} {e e' : Compiled}

/-- A formula goes on to be renumbered when the catalogs grow. -/
theorem goOn (h : Renumbers σ c c' e e') {later later' : Catalog} (hlater : c.Extends later)
    (hlater' : c'.Extends later') : Renumbers σ later later' e e' :=
  { h with slots := fun slot hslot => (h.slots slot hslot).extends hlater hlater' }

/-- A renumbered formula gives what the formula gives at every cell. -/
theorem samples_eq (h : Renumbers σ c c' e e') (hinputs : c'.inputs = c.inputs) (row col : Nat) :
    e'.task.samples (c'.slotsAt row col) = e.task.samples (c.slotsAt row col) := by
  have hagree : AgreeAlong σ e.program.tree.references (c.slotsAt row col)
      (c'.slotsAt row col) := by
    intro slot hslot
    obtain ⟨v, hv, hv'⟩ := h.slots slot (List.mem_eraseDups.2 hslot)
    refine ⟨v.kind.valueAt c.inputs row col, ?_, ?_⟩
    · rw [c.getElem?_slotsAt, hv, Option.map_some]
    · rw [c'.getElem?_slotsAt, hv', hinputs, Option.map_some]
  have hvalue : e'.program.evaluate (c'.slotsAt row col) =
      e.program.evaluate (c.slotsAt row col) := by
    unfold Program.evaluate
    rw [h.program, e.program.tree.eval_rename hagree]
  unfold Task.samples Task.components? task
  dsimp only
  rw [hvalue, h.output]

/-- What holds of the output of a formula holds of the output of the renumbered one. -/
theorem outputHolds (h : Renumbers σ c c' e e') (hinputs : c'.inputs = c.inputs) {region : Region}
    {transform : Transform Float} {o : ExpressionOutput}
    (ho : Session.OutputHolds c region transform o e) :
    Session.OutputHolds c' region transform o e' where
  source := ho.source.trans h.source.symm
  raster := by
    have houtput : e'.task.output = e.task.output := h.output
    refine ⟨houtput ▸ ho.raster.sameGrid, fun cell hcell band hband => ?_⟩
    rw [houtput] at hband ⊢
    rw [ho.raster.at?_eq cell hcell band hband, h.samples_eq hinputs]
  diagnostics := by
    rw [ho.diagnostics]
    exact congrArg Diagnostics.sum (List.map_congr_left fun cell _ =>
      congrArg Prod.snd (h.samples_eq hinputs cell.1 cell.2).symm)

end Compiled.Renumbers

namespace Session

variable {s s' : Session}

/-! ### Compilations one after the other -/

/-- Compile texts in order, each of which may be refused. -/
def compileEach (s : Session) (calls : List (String × PixelType)) : Session :=
  calls.foldl (fun s call => (s.compileTyped call.1 call.2).2) s

/-- What compilations leave of a session: names go on to mean what they mean, formulas keep their
places, and passes are run as before. -/
structure Compiles (s s' : Session) : Prop where
  /-- Variables stay in their slots. -/
  slots : s.catalog.Extends s'.catalog
  /-- Names mean the same. -/
  catalog : s.catalog.Interchangeable s'.catalog
  /-- Formulas come after those that are there. -/
  expressions : s.expressions <+: s'.expressions
  /-- The parameters are the same. -/
  params : s'.params = s.params
  /-- The next pass is called off if it was. -/
  isCancelled : s'.isCancelled = s.isCancelled

theorem Compiles.refl (s : Session) : s.Compiles s :=
  ⟨.refl _, .refl _, List.prefix_refl _, rfl, rfl⟩

theorem Compiles.trans {s'' : Session} (h : s.Compiles s') (h' : s'.Compiles s'') :
    s.Compiles s'' :=
  ⟨h.slots.trans h'.slots, h.catalog.trans h'.catalog, h.expressions.trans h'.expressions,
    h'.params.trans h.params, h'.isCancelled.trans h.isCancelled⟩

/-- A step: one compilation, whether the text is refused or not. -/
theorem Settled.compiles_compileTyped (h : s.Settled) (text : String) (t : PixelType) :
    s.Compiles (s.compileTyped text t).2 := by
  have hcatalog := catalog_compileTyped s text t
  refine ⟨?_, ?_, expressions_compileTyped s text t, ?_, ?_⟩
  · rw [hcatalog]
    exact (h.catalog.wellFormed.compile text t).2.slots
  · rw [hcatalog]
    exact h.catalog.wellFormed.interchangeable_compile text t
  · unfold Session.compileTyped
    split <;> rfl
  · unfold Session.compileTyped
    split <;> rfl

/-- A run: compilations one after the other. -/
theorem Settled.compileEach (h : s.Settled) (calls : List (String × PixelType)) :
    (s.compileEach calls).Settled ∧ s.Compiles (s.compileEach calls) := by
  induction calls generalizing s with
  | nil => exact ⟨h, .refl s⟩
  | cons call calls ih =>
    obtain ⟨hdone, hrest⟩ := ih (h.compileTyped call.1 call.2)
    exact ⟨hdone, (h.compiles_compileTyped call.1 call.2).trans hrest⟩

/-! ### Passes -/

/-- Two passes give one output, which is in place `i` of one and in place `i'` of the other, or they
fail for one reason. -/
inductive SameOutput (i i' : Nat) : Except Failure (List ExpressionOutput) →
    Except Failure (List ExpressionOutput) → Prop where
  /-- Both give the output. -/
  | gives {outs outs' : List ExpressionOutput} {o : ExpressionOutput} : outs[i]? = some o →
      outs'[i']? = some o → SameOutput i i' (.ok outs) (.ok outs')
  /-- Both fail. -/
  | fails (e : Failure) : SameOutput i i' (.error e) (.error e)

/-- Passes over one region are let begin alike in sessions of the same inputs, if both have a
formula or neither has one. -/
theorem checkPass_congr (hinputs : s'.catalog.inputs = s.catalog.inputs)
    (hempty : s'.expressions.isEmpty = s.expressions.isEmpty) (region : Region) :
    s'.checkPass region = s.checkPass region := by
  unfold checkPass firstInput
  rw [hinputs, hempty]

/-- A formula and a renumbered one give one output in passes over one region. -/
theorem Settled.sameOutput (h : s.Settled) (h' : s'.Settled)
    (hinputs : s'.catalog.inputs = s.catalog.inputs) (hparams : s'.params = s.params)
    (hcancelled : s'.isCancelled = s.isCancelled) {i i' : Nat} {e e' : Compiled} {σ : Nat → Nat}
    (he : s.expressions[i]? = some e) (he' : s'.expressions[i']? = some e')
    (hsame : Compiled.Renumbers σ s.catalog s'.catalog e e') (cores : Nat) (region : Region) :
    SameOutput i i' (s.runRegion cores region).1 (s'.runRegion cores region).1 := by
  have hempty : s'.expressions.isEmpty = s.expressions.isEmpty := by
    rw [List.isEmpty_eq_false_iff.2 (List.ne_nil_of_mem (List.mem_of_getElem? he)),
      List.isEmpty_eq_false_iff.2 (List.ne_nil_of_mem (List.mem_of_getElem? he'))]
  have hcheck' : s'.checkPass region = s.checkPass region :=
    checkPass_congr hinputs hempty region
  have hstops' : s'.stops cores region = s.stops cores region := by
    unfold stops
    rw [hparams, hcancelled]
  cases hcheck : s.checkPass region with
  | error fault =>
    rw [runRegion_of_error hcheck, runRegion_of_error (hcheck'.trans hcheck)]
    exact .fails fault
  | ok transform =>
    cases hstops : s.stops cores region with
    | true =>
      rw [h.runRegion_of_stops hcheck hstops,
        h'.runRegion_of_stops (hcheck'.trans hcheck) (hstops'.trans hstops)]
      exact .fails .cancelled
    | false =>
      obtain ⟨outs, hrun, houts⟩ := h.runRegion_of_not_stops hcheck hstops
      obtain ⟨outs', hrun', houts'⟩ :=
        h'.runRegion_of_not_stops (hcheck'.trans hcheck) (hstops'.trans hstops)
      obtain ⟨o, ho, hholds⟩ := exists_getElem?_of_forall₂ houts he
      obtain ⟨o', ho', hholds'⟩ := exists_getElem?_of_forall₂ houts' he'
      obtain rfl : o' = o := hholds'.unique (hsame.outputHolds hinputs hholds)
      rw [hrun, hrun']
      exact .gives ho ho'

/-! ### Two sessions -/

/-- **No interference**: if a text is compiled in a reachable session, in between any other texts
and also in between any others still, it is refused for one reason both times, or both times gives
one formula but for the numbers of its slots. In passes over one region its output and counts are
then the same, or the passes fail for one reason. -/
theorem Reachable.noninterference (h : s.Reachable)
    (before after before' after' : List (String × PixelType)) (text : String) (t : PixelType) :
    let r := (s.compileEach before).compileTyped text t
    let r' := (s.compileEach before').compileTyped text t
    (∃ fault, r.1 = .error fault ∧ r'.1 = .error fault) ∨
      ∃ i i' e e' σ, r.1 = .ok i ∧ r'.1 = .ok i' ∧
        r.2.expressions[i]? = some e ∧ r'.2.expressions[i']? = some e' ∧
        Compiled.Renumbers σ r.2.catalog r'.2.catalog e e' ∧
        ∀ cores region, SameOutput i i' ((r.2.compileEach after).runRegion cores region).1
          ((r'.2.compileEach after').runRegion cores region).1 := by
  intro r r'
  obtain ⟨hs, hbefore⟩ := h.settled.compileEach before
  obtain ⟨hs', hbefore'⟩ := h.settled.compileEach before'
  have hcatalogs := hbefore.catalog.symm.trans hbefore'.catalog
  rcases hcatalogs.compile hs.catalog.wellFormed hs'.catalog.wellFormed text t with
    ⟨fault, hfault, hfault'⟩ | ⟨e, e', σ, hcompile, hcompile', hsame⟩
  · exact Or.inl ⟨fault, congrArg Prod.fst (compileTyped_of_error hfault),
      congrArg Prod.fst (compileTyped_of_error hfault')⟩
  · have hr : r = _ := compileTyped_of_ok hcompile
    have hr' : r' = _ := compileTyped_of_ok hcompile'
    have hsame' : Compiled.Renumbers σ r.2.catalog r'.2.catalog e e' := by
      rw [hr, hr']
      exact hsame
    have he : r.2.expressions[(s.compileEach before).expressions.length]? = some e := by
      rw [hr]
      exact List.getElem?_concat_length
    have he' : r'.2.expressions[(s.compileEach before').expressions.length]? = some e' := by
      rw [hr']
      exact List.getElem?_concat_length
    refine Or.inr ⟨_, _, e, e', σ, congrArg Prod.fst hr, congrArg Prod.fst hr', he, he', hsame',
      fun cores region => ?_⟩
    obtain ⟨hdone, hafter⟩ := (hs.compileTyped text t).compileEach after
    obtain ⟨hdone', hafter'⟩ := (hs'.compileTyped text t).compileEach after'
    -- from the session to begin with, both have gone on by compilations only
    have hall := (hbefore.trans (hs.compiles_compileTyped text t)).trans hafter
    have hall' := (hbefore'.trans (hs'.compiles_compileTyped text t)).trans hafter'
    exact hdone.sameOutput hdone' (hall'.catalog.inputs.trans hall.catalog.inputs.symm)
      (hall'.params.trans hall.params.symm) (hall'.isCancelled.trans hall.isCancelled.symm)
      (getElem?_of_isPrefix hafter.expressions he) (getElem?_of_isPrefix hafter'.expressions he')
      (hsame'.goOn hafter.slots hafter'.slots) cores region

/-- A window of the sample gives the same alone and beside a window that has been asked for before
it, a text that is refused, and a formula that comes after it. -/
theorem sameOutput_window :
    let s := Sample.registered.2
    let alone := s.compileTyped "im1b1N3x1" .f32
    let beside := (s.compileEach [("im1b1N1x3", .u8), ("im1 +", .u8)]).compileTyped "im1b1N3x1" .f32
    s.Reachable ∧ ∃ i i', alone.1 = .ok i ∧ beside.1 = .ok i' ∧ ∀ cores region,
      SameOutput i i' (alone.2.runRegion cores region).1
        ((beside.2.compileEach [("im1b1N1x3 + 1", .u8)]).runRegion cores region).1 := by
  intro s alone beside
  have hregister : (initial .standard).register MapAlgebra.Sample.source none =
      .ok Sample.registered := eq_ok_valueOf _
  have hreachable : s.Reachable := .register (.initial _) hregister
  have hok : alone.1.isOk = true := by decide +kernel
  rcases hreachable.noninterference [] [] [("im1b1N1x3", .u8), ("im1 +", .u8)]
    [("im1b1N1x3 + 1", .u8)] "im1b1N3x1" .f32 with
    ⟨fault, hfault, -⟩ | ⟨i, i', _, _, _, hi, hi', -, -, -, hpasses⟩
  · have hfault' : alone.1 = .error fault := hfault
    rw [hfault'] at hok
    cases hok
  · exact ⟨hreachable, i, i', hi, hi', hpasses⟩

end Session

end MapAlgebra
