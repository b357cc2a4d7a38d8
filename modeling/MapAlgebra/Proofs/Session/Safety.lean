import MapAlgebra.Proofs.Pass.Declared
import MapAlgebra.Proofs.Session.Reachable

/-!
# Safety of compiled formulas

A formula that the session has taken on cannot go wrong later. Main statement:
**`Session.Reachable.safety`** says of a reachable session that a worker of a pass finds in every
slot what it copies into it, that every slot a formula reads holds a value of what is declared, that
the formula then has a value with one component for each band unless an index of `bands` picks none,
and that a pass therefore counts no error for a formula that does not call `bands`.

The formulas may have been compiled long before and the catalog may have gained windows since: they
are settled in the catalog of the session (`Session.Reachable.settled`).
-/

namespace MapAlgebra.Session

open Plan

variable {s : Session}

/-- A pass over the whole inputs is one over a region. -/
theorem exists_runRegion_of_run {cores : Nat} {outs : List ExpressionOutput}
    (h : (s.run cores).1 = .ok outs) : ∃ region, (s.runRegion cores region).1 = .ok outs := by
  unfold run at h
  split at h
  · cases h
  · exact ⟨_, h⟩

/-- The output of a formula that does not call `bands` counts no error. -/
theorem OutputHolds.runtimeErrors_eq_zero {c : Catalog} {region : Region}
    {transform : Transform Float} {o : ExpressionOutput} {e : Compiled}
    (h : OutputHolds c region transform o e) (he : e.Settled c)
    (hcalls : .bands ∉ e.program.tree.functions) : o.diagnostics.runtimeErrors = 0 := by
  rw [h.diagnostics]
  refine Diagnostics.runtimeErrors_sum fun d hd => ?_
  obtain ⟨cell, -, rfl⟩ := List.mem_map.1 hd
  exact (he.safeOn (c.declares_slotsAt _ _)).runtimeErrors_samples hcalls

/-- **Safety**: the formulas of a reachable session have a plan. Wherever a worker of the plan has
been, when it moves to a cell, what it copies into a slot fits what it finds there; then every slot
that a formula reads holds a value of the shape and the kind that its variable declares, and the
formula has a value with one component for each band of its output, or it fails on an index of
`bands`, which it calls. Passes that are let begin and are not called off succeed, and whatever a
pass gives has no errors counted for formulas that do not call `bands`. -/
theorem Reachable.safety (h : s.Reachable) :
    ∃ plan, Plan.ofCompiled s.catalog s.expressions = .ok plan ∧
      (∀ ctx : Context, ctx.Visited plan → ∀ row col : Nat,
        (∀ done slot f rest, plan.feeds = done ++ (slot, f) :: rest →
          f.Fits (done.foldl (Context.renew row col) (ctx.slots, ctx.cache)) row col slot) ∧
        ∀ e ∈ s.expressions,
          (∀ slot ∈ e.program.slots, ∃ v x, s.catalog.slots[slot]? = some v ∧
            (ctx.moveTo plan row col).slots[slot]? = some x ∧ v.kind.Declares x) ∧
          e.SafeOn (ctx.moveTo plan row col).slots) ∧
      (s.isCancelled = false → ∀ cores region transform, s.checkPass region = .ok transform →
        ∃ outs, (s.runRegion cores region).1 = .ok outs) ∧
      ∀ cores outs,
        ((s.run cores).1 = .ok outs ∨ ∃ region, (s.runRegion cores region).1 = .ok outs) →
        ∀ (i : Nat) (e : Compiled), s.expressions[i]? = some e →
          .bands ∉ e.program.tree.functions →
          ∃ o, outs[i]? = some o ∧ o.source = e.source ∧ o.diagnostics.runtimeErrors = 0 := by
  have hsettled := h.settled
  obtain ⟨plan, hplan⟩ := hsettled.catalog.wellFormed.exists_plan s.expressions
  have hrenews := (renews_of_ofCompiled hplan).1
  refine ⟨plan, hplan, fun ctx hctx row col => ⟨?_, fun e he => ⟨?_, ?_⟩⟩, ?_, ?_⟩
  · intro done slot f rest hfeeds
    have hdone : ∀ slot' f', (slot', f') ∈ done → ∃ v, s.catalog.slots[slot']? = some v ∧
        roleOf s.catalog.inputs v.kind = .ok (.renewed f') := fun slot' f' hmem =>
      hrenews.feed slot' f' (hfeeds ▸ List.mem_append_left _ hmem)
    have hfeed : (slot, f) ∈ plan.feeds := by simp [hfeeds]
    obtain ⟨v, hslot, hrole⟩ := hrenews.feed slot f hfeed
    have hshaped := (hctx.shaped hrenews).foldl_renew row col hdone
    exact hshaped.fits hsettled.catalog.wellFormed hslot hrole row col
  · intro slot hslot
    obtain ⟨v, hv⟩ := (hsettled.expressions e he).exists_variable hslot
    obtain ⟨x, hx, hdeclares⟩ := ((hctx.shaped hrenews).moveTo hrenews row col).slots slot v hv
    exact ⟨v, x, hv, hx, hdeclares⟩
  · exact (hsettled.expressions e he).safeOn ((hctx.shaped hrenews).moveTo hrenews row col).slots
  · intro hcancelled cores region transform hcheck
    obtain ⟨outs, hrun, -⟩ := hsettled.runRegion_holds hcancelled hcheck cores
    exact ⟨outs, congrArg Prod.fst hrun⟩
  · intro cores outs hrun i e he hcalls
    obtain ⟨region, hrun⟩ := hrun.elim exists_runRegion_of_run id
    obtain ⟨transform, houts⟩ := hsettled.holds_of_runRegion hrun
    obtain ⟨o, ho, hholds⟩ := exists_getElem?_of_forall₂ houts he
    have he' := hsettled.expressions e (List.mem_of_getElem? he)
    exact ⟨o, ho, hholds.source, hholds.runtimeErrors_eq_zero he' hcalls⟩

/-- A pass over the sample, whose second formula has asked for a window after the first one had been
compiled, succeeds without an error. -/
theorem runRegion_sample :
    Sample.session.Reachable ∧ ∃ outs, (Sample.session.runRegion 2 (.full 2 2)).1 = .ok outs ∧
      ∀ (i : Nat) (e : Compiled), Sample.session.expressions[i]? = some e →
        ∃ o, outs[i]? = some o ∧ o.diagnostics.runtimeErrors = 0 := by
  have hcheck : Sample.session.checkPass (.full 2 2) =
      .ok MapAlgebra.Sample.source.raster.transform :=
    checkPass_eq_ok_iff.2 ⟨MapAlgebra.Sample.source, by rw [Sample.inputs_session]; rfl,
      Sample.expressions_session_ne_nil, rfl, rfl⟩
  have hcalls : ∀ e ∈ Sample.session.expressions, .bands ∉ e.program.tree.functions := by
    decide +kernel
  obtain ⟨-, -, -, hruns, hcounts⟩ := Sample.session_reachable.safety
  obtain ⟨outs, hrun⟩ := hruns Sample.isCancelled_session 2 _ _ hcheck
  refine ⟨Sample.session_reachable, outs, hrun, fun i e he => ?_⟩
  obtain ⟨o, ho, -, herrors⟩ :=
    hcounts 2 outs (Or.inr ⟨_, hrun⟩) i e he (hcalls e (List.mem_of_getElem? he))
  exact ⟨o, ho, herrors⟩

end MapAlgebra.Session
