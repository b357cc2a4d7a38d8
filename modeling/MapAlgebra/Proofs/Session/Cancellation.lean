import MapAlgebra.Proofs.Session.Reachable

/-!
# Passes that are called off

A request to call off a pass is looked at when a part of the region is begun. A region without cells
has no part (**`Coordinator.isEmpty_parts`**), so a pass over it goes through though it has been
called off (**`Session.runRegion_of_called_off`**). Over any other region the pass says that it has
been called off; in either case the request is spent, and the pass can be run again as if there had
been none: **`Session.Reachable.cancellation`**.
-/

namespace MapAlgebra

/-- A region has a part exactly if it has a cell. -/
theorem Coordinator.isEmpty_parts (k : Coordinator) (region : Region) (workers : Nat) :
    (k.parts region workers).isEmpty = region.isEmpty := by
  have hcovers := k.covers_parts region workers
  cases hempty : region.isEmpty with
  | true =>
    unfold parts Region.tiles Region.strips
    split <;> rw [if_pos hempty] <;> rfl
  | false =>
    rw [List.isEmpty_eq_false_iff]
    intro hnil
    rw [hnil] at hcovers
    have hcells : region.gridCells = [] := hcovers.symm.eq_nil
    rw [Region.gridCells_eq_nil_iff.1 hcells] at hempty
    cases hempty

namespace Session

variable {s : Session} {region : Region} {first : Source}

theorem stops_eq (s : Session) (cores : Nat) (region : Region) :
    s.stops cores region = (s.isCancelled && !region.isEmpty) := by
  unfold stops
  rw [Coordinator.isEmpty_parts]

/-- The session as it would be had nobody asked for its next pass to be called off. -/
def calm (s : Session) : Session := { s with isCancelled := false }

theorem Settled.calm (h : s.Settled) : s.calm.Settled := ⟨h.catalog, h.expressions⟩

/-- **Cancellation**: in a reachable session with an input and a formula whose next pass has been
called off, a pass over a region inside the first input says so and gives no outputs, unless the
region has no cell; then it gives what it would have given without the request. In either case it
leaves the session that a pass without the request would have left, in which no pass is called off;
and a pass over the region in this session gives the outputs, with their counts, that it would have
given had there been no request. -/
theorem Reachable.cancellation (h : s.Reachable) (hcancelled : s.isCancelled = true)
    (hfirst : s.catalog.inputs.head? = some first) (hexpressions : s.expressions ≠ [])
    (hwithin : region.checkWithin first.raster.rows first.raster.cols = .ok ())
    (cores cores' : Nat) :
    (s.runRegion cores region).1 =
        (if region.isEmpty then (s.calm.runRegion cores region).1 else .error .cancelled) ∧
      (s.runRegion cores region).2 = (s.calm.runRegion cores region).2 ∧
      (s.runRegion cores region).2.isCancelled = false ∧
      ∃ outs, (s.calm.runRegion cores' region).1 = .ok outs ∧
        ((s.runRegion cores region).2.runRegion cores' region).1 = .ok outs := by
  have hsettled := h.settled
  have hcheck : s.checkPass region = .ok first.raster.transform :=
    checkPass_eq_ok_iff.2 ⟨first, hfirst, hexpressions, hwithin, rfl⟩
  have hcalm : s.calm.checkPass region = .ok first.raster.transform := hcheck
  obtain ⟨plan, -, hrun⟩ := hsettled.runRegion_eq hcheck cores
  obtain ⟨plan', -, hrun'⟩ := hsettled.calm.runRegion_eq hcalm cores
  refine ⟨?_, by rw [hrun, hrun']; rfl, by rw [hrun], ?_⟩
  · have hstops : s.stops cores region = !region.isEmpty := by
      rw [stops_eq, hcancelled, Bool.true_and]
    cases hempty : region.isEmpty with
    | false =>
      rw [hempty] at hstops
      exact hsettled.runRegion_of_stops hcheck hstops
    | true =>
      rw [hempty] at hstops
      obtain ⟨outs, houts, hholds⟩ := hsettled.runRegion_of_not_stops hcheck hstops
      obtain ⟨outs', houts', hholds'⟩ := hsettled.calm.runRegion_holds rfl hcalm cores
      rw [if_pos rfl, houts, houts', OutputHolds.unique_forall₂ hholds hholds']
  · obtain ⟨outs, houts, hholds⟩ := hsettled.calm.runRegion_holds rfl hcalm cores'
    obtain ⟨outs', houts', hholds'⟩ := hsettled.runRegion_next hcheck cores cores'
    refine ⟨outs, congrArg Prod.fst houts, ?_⟩
    rw [houts', OutputHolds.unique_forall₂ hholds' hholds]

/-- A pass over the left column of the sample that is called off, and the same pass after it. -/
theorem runRegion_called_off_once :
    let s := Sample.session.cancel
    let region : Region := ⟨0, 0, 2, 1⟩
    s.Reachable ∧ s.isCancelled = true ∧ (s.runRegion 2 region).1 = .error .cancelled ∧
      ∃ outs, (Sample.session.runRegion 2 region).1 = .ok outs ∧
        ((s.runRegion 2 region).2.runRegion 2 region).1 = .ok outs := by
  intro s region
  have hreachable : s.Reachable := .cancel Sample.session_reachable
  have hwithin : region.checkWithin MapAlgebra.Sample.source.raster.rows
      MapAlgebra.Sample.source.raster.cols = .ok () := rfl
  obtain ⟨hrun, -, -, outs, houts, hagain⟩ := hreachable.cancellation rfl
    Sample.head?_inputs_session Sample.expressions_session_ne_nil hwithin 2 2
  have hcalm : s.calm = Sample.session := by
    unfold calm
    rw [← Sample.isCancelled_session]
    rfl
  rw [hcalm] at houts
  exact ⟨hreachable, rfl, hrun, outs, houts, hagain⟩

/-- A pass over no row of the sample goes through though it has been called off. -/
theorem runRegion_of_called_off :
    let s := Sample.session.cancel
    let region : Region := ⟨0, 0, 0, 1⟩
    s.Reachable ∧ s.isCancelled = true ∧ s.catalog.inputs ≠ [] ∧ s.expressions ≠ [] ∧
      (∀ source ∈ s.catalog.inputs,
        region.checkWithin source.raster.rows source.raster.cols = .ok ()) ∧
      (s.runRegion 1 region).1 ≠ .error .cancelled ∧
      ∃ outs, (s.runRegion 1 region).1 = .ok outs ∧ outs.length = s.expressions.length := by
  intro s region
  have hreachable : s.Reachable := .cancel Sample.session_reachable
  have hinputs : s.catalog.inputs = [MapAlgebra.Sample.source] := Sample.inputs_session
  have hcheck : s.checkPass region = .ok MapAlgebra.Sample.source.raster.transform :=
    checkPass_eq_ok_iff.2 ⟨MapAlgebra.Sample.source, Sample.head?_inputs_session,
      Sample.expressions_session_ne_nil, rfl, rfl⟩
  have hstops : s.stops 1 region = false := by
    rw [stops_eq]
    rfl
  obtain ⟨outs, hrun, houts⟩ := hreachable.settled.runRegion_of_not_stops hcheck hstops
  refine ⟨hreachable, rfl, by rw [hinputs]; exact List.cons_ne_nil _ _,
    Sample.expressions_session_ne_nil, ?_, by rw [hrun]; exact fun heq => (nomatch heq),
    outs, hrun, houts.length_eq⟩
  rw [hinputs]
  exact List.forall_mem_singleton.2 rfl

end Session

end MapAlgebra
