import MapAlgebra.Proofs.Session.Reachable

/-!
# Recompilation

A session goes on by requests, of which some are refused (`Session.performAll`). Before a pass, the
formulas that the catalog has moved past are compiled again. Main statement:
**`Session.Reachable.recompilation`**, by which nothing comes of this but the generation of the
formulas: it never fails, the catalog stays, every formula is still what it was when it was
compiled, and so a pass writes what the session has announced, and writes it again when it is run
again.
-/

namespace MapAlgebra.Session

variable {s s' : Session}

/-! ### Requests -/

/-- What may be asked of a session. -/
inductive Request where
  /-- Register an input. -/
  | register (source : Source) (alias? : Option String)
  /-- Declare a number. -/
  | declareConstant (name : String) (x : Float)
  /-- Declare a matrix. -/
  | declareMatrix (name : String) (rows cols : Nat) (values : List Float)
  /-- Declare a matrix as a text. -/
  | declareMatrixText (name text : String)
  /-- Compile a formula. -/
  | compileTyped (text : String) (t : PixelType)
  /-- Call off the next pass. -/
  | cancel
  /-- Run a pass over a region. -/
  | runRegion (cores : Nat) (region : Region)

/-- What a request that may be refused leads to; it leaves the session if it is. -/
def orStay (s : Session) : Except Failure Session → Session
  | .ok s' => s'
  | .error _ => s

/-- The session that a request leads to, whether it is granted or refused. -/
def perform (s : Session) : Request → Session
  | .register source alias? => s.orStay ((s.register source alias?).map (·.2))
  | .declareConstant name x => s.orStay (s.declareConstant name x)
  | .declareMatrix name rows cols values => s.orStay (s.declareMatrix name rows cols values)
  | .declareMatrixText name text => s.orStay (s.declareMatrixText name text)
  | .compileTyped text t => (s.compileTyped text t).2
  | .cancel => s.cancel
  | .runRegion cores region => (s.runRegion cores region).2

/-- The session that requests in order lead to. -/
def performAll (s : Session) (requests : List Request) : Session := requests.foldl perform s

/-- What is true of the session and of every session that an operation leads to is true of what the
operation leads to or leaves. -/
theorem orStay_induction {P : Session → Prop} {x : Except Failure Session} (hstay : P s)
    (hgo : ∀ s', x = .ok s' → P s') : P (s.orStay x) := by
  cases x with
  | error e => exact hstay
  | ok s' => exact hgo s' rfl

theorem map_snd_eq_ok {α : Type} {x : Except Failure (α × Session)}
    (h : x.map (·.2) = .ok s') : ∃ a, x = .ok (a, s') := by
  cases x with
  | error e => cases h
  | ok r =>
    cases h
    exact ⟨r.1, rfl⟩

theorem Reachable.perform (h : s.Reachable) (request : Request) :
    (s.perform request).Reachable := by
  cases request with
  | register source alias? =>
    refine orStay_induction h fun s' hstep => ?_
    obtain ⟨image, hstep⟩ := map_snd_eq_ok hstep
    exact h.register hstep
  | declareConstant => exact orStay_induction h fun s' hstep => h.declareConstant hstep
  | declareMatrix => exact orStay_induction h fun s' hstep => h.declareMatrix hstep
  | declareMatrixText => exact orStay_induction h fun s' hstep => h.declareMatrixText hstep
  | compileTyped text t => exact h.compileTyped text t
  | cancel => exact h.cancel
  | runRegion cores region => exact h.runRegion cores region

theorem Reachable.performAll (h : s.Reachable) (requests : List Request) :
    (s.performAll requests).Reachable := by
  induction requests generalizing s with
  | nil => exact h
  | cons request requests ih => exact ih (h.perform request)

/-- A step: a request takes the catalog on. -/
theorem Settled.leadsTo_perform (h : s.Settled) (request : Request) :
    s.catalog.LeadsTo (s.perform request).catalog := by
  have hgranted : ∀ {x : Except Failure Session},
      (∀ s', x = .ok s' → s.catalog.LeadsTo s'.catalog) →
      s.catalog.LeadsTo (s.orStay x).catalog := fun hgo =>
    orStay_induction (P := fun s' => s.catalog.LeadsTo s'.catalog) .refl hgo
  cases request with
  | register source alias? =>
    refine hgranted fun s' hstep => ?_
    obtain ⟨image, hstep⟩ := map_snd_eq_ok hstep
    obtain ⟨_, hcatalog, heq⟩ := bind_eq_ok_iff.1 hstep
    cases heq
    exact .register .refl hcatalog
  | declareConstant =>
    refine hgranted fun s' hstep => ?_
    obtain ⟨_, hcatalog, heq⟩ := bind_eq_ok_iff.1 hstep
    cases heq
    exact .declareConstant .refl hcatalog
  | declareMatrix =>
    refine hgranted fun s' hstep => ?_
    obtain ⟨_, hcatalog, heq⟩ := bind_eq_ok_iff.1 hstep
    cases heq
    exact .declareMatrix .refl hcatalog
  | declareMatrixText =>
    refine hgranted fun s' hstep => ?_
    obtain ⟨_, hcatalog, heq⟩ := bind_eq_ok_iff.1 hstep
    cases heq
    exact .declareMatrixText .refl hcatalog
  | compileTyped text t =>
    show s.catalog.LeadsTo (s.compileTyped text t).2.catalog
    rw [catalog_compileTyped]
    exact .compile text t .refl
  | cancel => exact .refl
  | runRegion cores region =>
    show s.catalog.LeadsTo (s.runRegion cores region).2.catalog
    rcases h.runRegion_snd cores region with hsame | hdone
    · rw [hsame]
      exact .refl
    · rw [hdone]
      exact .refl

/-- A run: requests take the catalog on. -/
theorem Reachable.leadsTo_performAll (h : s.Reachable) (requests : List Request) :
    s.catalog.LeadsTo (s.performAll requests).catalog := by
  induction requests generalizing s with
  | nil => exact .refl
  | cons request requests ih =>
    exact (h.settled.leadsTo_perform request).trans (ih (h.perform request))

/-! ### What becomes of formulas -/

/-- The formulas of a session are in their places in another one, and nothing about them has changed
but perhaps the generation of the catalog they were compiled against. -/
def KeepsFormulas (s s' : Session) : Prop :=
  ∀ (i : Nat) (e : Compiled), s.expressions[i]? = some e →
    ∃ generation, s'.expressions[i]? = some { e with generation }

theorem KeepsFormulas.refl (s : Session) : s.KeepsFormulas s := fun _ e he => ⟨e.generation, he⟩

theorem KeepsFormulas.trans {s'' : Session} (h : s.KeepsFormulas s') (h' : s'.KeepsFormulas s'') :
    s.KeepsFormulas s'' := by
  intro i e he
  obtain ⟨_, he'⟩ := h i e he
  obtain ⟨generation, he''⟩ := h' i _ he'
  exact ⟨generation, he''⟩

/-- Formulas that come later do not touch those that are there. -/
theorem keepsFormulas_of_isPrefix (h : s.expressions <+: s'.expressions) : s.KeepsFormulas s' :=
  fun _ e he => ⟨e.generation, getElem?_of_isPrefix h he⟩

theorem keepsFormulas_renewed (s : Session) (isCancelled : Bool) :
    s.KeepsFormulas { s.renewed with isCancelled } := by
  intro i e he
  refine ⟨s.catalog.generation, ?_⟩
  show (s.expressions.map (·.renewed s.catalog))[i]? = _
  rw [List.getElem?_map, he]
  rfl

/-- The formula that a compilation gives is in the place that is answered. -/
theorem getElem?_of_compileTyped {text : String} {t : PixelType} {i : Nat}
    (h : s.compileTyped text t = (.ok i, s')) :
    ∃ e, (s.catalog.compile text t).1 = .ok e ∧ s'.expressions[i]? = some e := by
  cases hcompile : (s.catalog.compile text t).1 with
  | error e =>
    rw [compileTyped_of_error hcompile] at h
    cases h
  | ok e =>
    rw [compileTyped_of_ok hcompile] at h
    cases h
    exact ⟨e, rfl, List.getElem?_concat_length⟩

/-- A step: no request touches the formulas that are there. -/
theorem Settled.keepsFormulas_perform (h : s.Settled) (request : Request) :
    s.KeepsFormulas (s.perform request) := by
  cases request with
  | register source alias? =>
    refine orStay_induction (.refl s) fun s' hstep => ?_
    obtain ⟨image, hstep⟩ := map_snd_eq_ok hstep
    obtain ⟨_, -, heq⟩ := bind_eq_ok_iff.1 hstep
    cases heq
    exact keepsFormulas_of_isPrefix (List.prefix_refl _)
  | declareConstant | declareMatrix | declareMatrixText =>
    refine orStay_induction (.refl s) fun s' hstep => ?_
    obtain ⟨_, -, heq⟩ := bind_eq_ok_iff.1 hstep
    cases heq
    exact keepsFormulas_of_isPrefix (List.prefix_refl _)
  | compileTyped text t => exact keepsFormulas_of_isPrefix (expressions_compileTyped s text t)
  | cancel => exact keepsFormulas_of_isPrefix (List.prefix_refl _)
  | runRegion cores region =>
    show s.KeepsFormulas (s.runRegion cores region).2
    rcases h.runRegion_snd cores region with hsame | hdone
    · rw [hsame]
      exact .refl s
    · rw [hdone]
      exact keepsFormulas_renewed s false

/-- A run: formulas stay as they are however the session goes on. -/
theorem Reachable.keepsFormulas (h : s.Reachable) (requests : List Request) :
    s.KeepsFormulas (s.performAll requests) := by
  induction requests generalizing s with
  | nil => exact .refl s
  | cons request requests ih =>
    exact (h.settled.keepsFormulas_perform request).trans (ih (h.perform request))

/-! ### Passes -/

/-- A pass writes what the formulas of the session write. -/
theorem specs_of_forall₂ {c : Catalog} {region : Region} {transform : Transform Float}
    {outs : List ExpressionOutput} {es : List Compiled}
    (h : List.Forall₂ (OutputHolds c region transform) outs es) :
    outs.map (fun o => (⟨o.raster.bands, o.raster.pixelType⟩ : OutputSpec)) =
      es.map (·.output) := by
  induction h with
  | nil => rfl
  | cons hhead _ ih =>
    have hbands := hhead.raster.sameGrid.bands
    have htype := hhead.raster.sameGrid.pixelType
    rw [List.map_cons, List.map_cons, ih, hbands, htype]
    rfl

/-- A pass over a region that is run again, on whatever machine, gives what it gave before, if that
was not that it had been called off. -/
theorem Settled.runRegion_again (h : s.Settled) (cores cores' : Nat) (region : Region) :
    (s.runRegion cores region).1 = .error .cancelled ∨
      ((s.runRegion cores region).2.runRegion cores' region).1 = (s.runRegion cores region).1 := by
  cases hcheck : s.checkPass region with
  | error e =>
    right
    rw [runRegion_of_error hcheck, runRegion_of_error hcheck]
  | ok transform =>
    cases hstops : s.stops cores region with
    | true => exact Or.inl (h.runRegion_of_stops hcheck hstops)
    | false =>
      right
      obtain ⟨outs, hrun, houts⟩ := h.runRegion_of_not_stops hcheck hstops
      obtain ⟨outs', hrun', houts'⟩ := h.runRegion_next hcheck cores cores'
      rw [hrun, hrun', OutputHolds.unique_forall₂ houts' houts]

/-! ### Recompilation -/

/-- What can be relied on when a session has gone on to a later one, whose formulas are then
compiled again. -/
structure Recompiles (s later : Session) : Prop where
  /-- No formula is refused; the catalog and all else is left, and of a formula only the generation
  is changed, to that of the catalog. -/
  recompileStale : later.recompileStale =
    (.ok (), { later with expressions := later.expressions.map fun e =>
      { e with generation := later.catalog.generation } })
  /-- Places denote the formulas that they did: the text, the program, the names, the shape and what
  is written are the same. -/
  formula : ∀ (i : Nat) (e : Compiled), s.expressions[i]? = some e →
    later.recompileStale.2.expressions[i]? =
      some { e with generation := later.catalog.generation }
  /-- A pass writes what the session announces before it. -/
  writes : ∀ (cores : Nat) (region : Region) (outs : List ExpressionOutput),
    (later.runRegion cores region).1 = .ok outs →
    outs.map (fun o => (⟨o.raster.bands, o.raster.pixelType⟩ : OutputSpec)) = later.outputSpecs
  /-- A pass that is not called off gives the same when it is run again, be it outputs and counts or
  a refusal. -/
  again : ∀ (cores cores' : Nat) (region : Region),
    (later.runRegion cores region).1 = .error .cancelled ∨
      ((later.runRegion cores region).2.runRegion cores' region).1 =
        (later.runRegion cores region).1

/-- **Recompilation** never changes what a formula means: neither that of formulas that a reachable
session has, nor that of a formula it compiles next, whatever requests come after, granted or
refused. -/
theorem Reachable.recompilation (h : s.Reachable) :
    (∀ requests, s.Recompiles (s.performAll requests)) ∧
      ∀ (text : String) (t : PixelType) (i : Nat) (next : Session),
        s.compileTyped text t = (.ok i, next) → ∃ e, (s.catalog.compile text t).1 = .ok e ∧
          ∀ requests, next.Recompiles (next.performAll requests) ∧
            (next.performAll requests).recompileStale.2.expressions[i]? =
              some { e with generation := (next.performAll requests).catalog.generation } := by
  have hrecompiles : ∀ {s : Session}, s.Reachable → ∀ requests,
      s.Recompiles (s.performAll requests) := by
    intro s h requests
    have hlater := (h.performAll requests).settled
    exact {
      recompileStale := hlater.recompileStale
      formula := by
        intro i e he
        obtain ⟨_, he'⟩ := h.keepsFormulas requests i e he
        rw [hlater.recompileStale]
        show ((s.performAll requests).expressions.map _)[i]? = _
        rw [List.getElem?_map, he']
        rfl
      writes := by
        intro cores region outs hrun
        obtain ⟨transform, houts⟩ := hlater.holds_of_runRegion hrun
        exact specs_of_forall₂ houts
      again := hlater.runRegion_again }
  refine ⟨hrecompiles h, fun text t i next hcompile => ?_⟩
  obtain ⟨e, hmade, he⟩ := getElem?_of_compileTyped hcompile
  have hnext : next.Reachable := by
    have hstep := h.compileTyped text t
    rwa [hcompile] at hstep
  exact ⟨e, hmade, fun requests =>
    ⟨hrecompiles hnext requests, (hrecompiles hnext requests).formula i e he⟩⟩

/-- The formulas of the sample, which a number that is declared makes stale; a formula that is
refused comes after it. -/
theorem recompileStale_sample :
    let later := Sample.session.performAll [.declareConstant "gain" 2, .compileTyped "gain +" .u8]
    Sample.session.Reachable ∧ later.expressions.map (·.isStale later.catalog) = [true, true] ∧
      ∀ (i : Nat) (e : Compiled), Sample.session.expressions[i]? = some e →
        later.recompileStale.2.expressions[i]? =
          some { e with generation := later.catalog.generation } :=
  ⟨Sample.session_reachable, by decide +kernel,
    (Sample.session_reachable.recompilation.1 _).formula⟩

end MapAlgebra.Session
