import MapAlgebra.Proofs.Catalog.Residue
import MapAlgebra.Proofs.Session.Reachable

/-!
# Refusals

What is left behind when a session or its catalog refuses what it is asked for. Main statement:
**`Catalog.Reachable.refusals`**. A registration, a declaration or a look-up that is refused leaves
the catalog, though it writes in place; a compilation that is refused leaves the windows that it has
made on the way (`Catalog.AddsWindows`), and nothing else of the session changes.
-/

namespace MapAlgebra.Catalog

variable {c : Catalog}

/-- An operation in place that is refused leaves the catalog, unless it is a compilation. -/
theorem Operation.eq_of_inPlace_refused {op : Operation} (hop : ∀ text t, op ≠ .compile text t)
    {e : Failure} {c' : Catalog} (hrefused : op.inPlace.on c = (.error e, c')) : c' = c := by
  rw [op.on_inPlace] at hrefused
  cases op with
  | compile text t => exact absurd rfl (hop text t)
  | register | declareConstant | declareMatrix | declareMatrixText | resolve =>
    exact eq_of_settle_eq_error hrefused

/-- **Refusals**: the operations of a catalog, each making its checks and its writes in place one
after the other, answer what they answer when they give back a new catalog, and leave that catalog.
If a registration, a declaration or a look-up is refused, the catalog is what it was. If a
compilation is refused, the catalog has gained windows that names of the formula ask for and names
of such windows, and nothing else; the formulas, the parameters and a request to call off a pass are
those that the session had. -/
theorem Reachable.refusals (hc : c.Reachable) :
    (∀ op : Operation, op.inPlace.on c = op.outcome c) ∧
      (∀ (op : Operation) (e : Failure) (c' : Catalog), (∀ text t, op ≠ .compile text t) →
        op.inPlace.on c = (.error e, c') → c' = c) ∧
      (∀ (text : String) (t : PixelType) (e : Failure) (c' : Catalog),
        (Operation.compile text t).inPlace.on c = (.error e, c') →
          c.Grows c' ∧ c.AddsWindows (namesIn text) c') ∧
      ∀ s : Session, s.catalog = c → ∀ (text : String) (t : PixelType) (e : Failure) (s' : Session),
        (s.compileTyped text t = (.error e, s') ∨ s.compile text = (.error e, s')) →
          s'.expressions = s.expressions ∧ s'.params = s.params ∧
            s'.isCancelled = s.isCancelled ∧ c.Grows s'.catalog ∧
            c.AddsWindows (namesIn text) s'.catalog := by
  refine ⟨fun op => op.on_inPlace c,
    fun op e c' hop hrefused => Operation.eq_of_inPlace_refused hop hrefused, ?_, ?_⟩
  · intro text t e c' hrefused
    rw [Operation.on_inPlace] at hrefused
    obtain rfl : (c.compile text t).2 = c' := congrArg Prod.snd hrefused
    have hadds := hc.wellFormed.addsWindows_compile text t
    exact ⟨hadds.grows, hadds⟩
  · rintro s rfl text t e s' hrefused
    have hcompile : ∃ t, s.compileTyped text t = (.error e, s') :=
      hrefused.elim (fun h => ⟨t, h⟩) fun h => ⟨s.params.outputType, h⟩
    obtain ⟨t, hcompile⟩ := hcompile
    have hadds := hc.wellFormed.addsWindows_compile text t
    cases hresult : (s.catalog.compile text t).1 with
    | ok formula =>
      rw [Session.compileTyped_of_ok hresult] at hcompile
      cases hcompile
    | error e' =>
      rw [Session.compileTyped_of_error hresult] at hcompile
      cases hcompile
      exact ⟨rfl, rfl, rfl, hadds.grows, hadds⟩

/-- A root that is in use is refused and leaves the catalog. A formula with an unknown name is
refused and leaves the window that another name of it asks for. -/
theorem refusals_sample :
    let c := Sample.aliased.2
    let s : Session := { Session.initial .standard with catalog := c }
    c.Reachable ∧
      (∃ e, (Operation.register Sample.cell (some "a")).inPlace.on c = (.error e, c)) ∧
      ∃ e s', s.compileTyped "ab1N3x1 + nowhere" .f64 = (.error e, s') ∧
        s'.expressions = [] ∧ c.AddsWindows (namesIn "ab1N3x1 + nowhere") s'.catalog ∧
        s'.catalog.slots.size = c.slots.size + 1 := by
  intro c s
  have hreachable : c.Reachable := Sample.aliased_reachable
  obtain ⟨-, hleaves, -, hsession⟩ := hreachable.refusals
  let again := (Operation.register Sample.cell (some "a")).inPlace.on c
  obtain ⟨e, he⟩ := exists_eq_error (x := again.1) (by decide +kernel)
  have hcatalog : again.2 = c :=
    hleaves (.register Sample.cell (some "a")) e _ (fun _ _ h => nomatch h) (Prod.ext he rfl)
  let refused := s.compileTyped "ab1N3x1 + nowhere" .f64
  obtain ⟨e', he'⟩ := exists_eq_error (x := refused.1) (by decide +kernel)
  have hrefused : refused = (.error e', refused.2) := Prod.ext he' rfl
  obtain ⟨hexpressions, -, -, -, hadds⟩ := hsession s rfl _ _ _ _ (Or.inl hrefused)
  exact ⟨hreachable, ⟨e, Prod.ext he hcatalog⟩, e', refused.2, hrefused, hexpressions, hadds,
    by decide +kernel⟩

end MapAlgebra.Catalog
