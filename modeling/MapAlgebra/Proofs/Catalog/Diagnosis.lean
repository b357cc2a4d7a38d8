import MapAlgebra.Proofs.Catalog.Interchange
import MapAlgebra.Proofs.Expr.Bound

/-!
# Why a text cannot be compiled

A compilation can go wrong when the text is read, when its names are looked up and when the bound
formula is tried out. Main statement: **`Reachable.diagnosis`** says that the failure carries the
text in any case, and that the names it reports as unknown are those that lead nowhere, all of them
and in the order in which they first appear.

A name is looked up in what the names before it have left of the catalog. That makes no difference,
since looking up names changes the meaning of none (`WellFormed.interchangeable_resolve`).
-/

namespace MapAlgebra

open MapAlgebra.Expr

/-! ### First appearances -/

section FirstAppearances

variable {α : Type} [BEq α] [LawfulBEq α]

/-- Of two items that are kept, the one that comes first comes first among all. -/
theorem idxOf_lt_of_filter {p : α → Bool} {a b : α} (ha : p a = true) (hb : p b = true)
    {l : List α} (h : (l.filter p).idxOf a < (l.filter p).idxOf b) : l.idxOf a < l.idxOf b := by
  induction l with
  | nil => exact h
  | cons x l ih =>
    by_cases hx : p x = true
    · rw [List.filter_cons_of_pos hx] at h
      rw [List.idxOf_cons, List.idxOf_cons] at h ⊢
      cases hxa : x == a with
      | true =>
        cases hxb : x == b with
        | true =>
          rw [hxa, hxb] at h
          exact absurd h (Nat.lt_irrefl _)
        | false => exact Nat.succ_pos _
      | false =>
        cases hxb : x == b with
        | true =>
          rw [hxb] at h
          exact absurd h (Nat.not_lt_zero _)
        | false =>
          rw [hxa, hxb] at h
          exact Nat.succ_lt_succ (ih (Nat.lt_of_succ_lt_succ h))
    · have hne : ∀ {d}, p d = true → x ≠ d := fun hd heq => hx (heq ▸ hd)
      rw [List.filter_cons_of_neg hx] at h
      rw [List.idxOf_cons_ne l (hne ha), List.idxOf_cons_ne l (hne hb)]
      exact Nat.succ_lt_succ (ih h)

/-- Without repetitions, items stand in the order of their first appearances. -/
theorem pairwise_idxOf_eraseDups (l : List α) :
    l.eraseDups.Pairwise fun a b => l.idxOf a < l.idxOf b := by
  match l with
  | [] => exact .nil
  | x :: l =>
    rw [List.eraseDups_cons, List.pairwise_cons]
    have hkept : ∀ {b}, b ∈ (l.filter fun b => !b == x).eraseDups → (!b == x) = true := fun hb =>
      (List.mem_filter.1 (List.mem_eraseDups.1 hb)).2
    have hne : ∀ {b}, (!b == x) = true → x ≠ b := by
      rintro b hb rfl
      simp at hb
    constructor
    · intro b hb
      rw [List.idxOf_cons_self, List.idxOf_cons_ne l (hne (hkept hb))]
      exact Nat.succ_pos _
    · refine (pairwise_idxOf_eraseDups (l.filter fun b => !b == x)).imp_of_mem
        fun {a b} ha hb hlt => ?_
      rw [List.idxOf_cons_ne l (hne (hkept ha)), List.idxOf_cons_ne l (hne (hkept hb))]
      exact Nat.succ_lt_succ
        (idxOf_lt_of_filter (p := fun b => !b == x) (hkept ha) (hkept hb) hlt)
termination_by l.length
decreasing_by
  rw [List.length_cons]
  exact Nat.lt_succ_of_le (List.length_filter_le _ _)

end FirstAppearances

/-! ### Failures of formulas -/

namespace Failure

/-- The text that a failure carries, if it is one of a formula. -/
def formula? : Failure → Option String
  | .unknownVariables formula _ | .bandOutOfRange formula _ _ _ | .evenWindow formula _ _ _
  | .malformed formula _ _ | .shapeMismatch formula _ _ _ | .dimensionality formula _ _ _ =>
    some formula
  | .configuration _ | .nameCollision _ | .cancelled | .raster _ => none

/-- The failures of looking up a name: it is unknown, or it asks for a band that its input does not
have or for a window with an even side. -/
def OfName (name : String) : Failure → Prop
  | .unknownVariables _ names => names = [name]
  | .bandOutOfRange _ _ _ _ | .evenWindow _ _ _ _ => True
  | _ => False

/-- A failure of looking up a name becomes one of the formula. -/
theorem OfName.formula?_inFormula {name : String} {e : Failure} (h : e.OfName name)
    (text : String) : (e.inFormula text).formula? = some text := by
  cases e <;> first | rfl | exact h.elim

theorem formula?_ofEvalError {e : EvalError} (h : e.OfValues) (text : String) :
    (ofEvalError text e).formula? = some text := by
  cases e with
  | unboundSlot slot => exact h.elim
  | _ => rfl

theorem ofEvalError_ne_unknown {e : EvalError} {text text' : String} {names : List String} :
    ofEvalError text e ≠ .unknownVariables text' names := by
  cases e <;> exact fun h => nomatch h

end Failure

namespace Catalog

variable {c c' : Catalog}

/-! ### Looking up names -/

theorem meets_checkBand (c : Catalog) (name : String) (image number : Nat) :
    Meets (fun _ => True) (Failure.OfName name) (c.checkBand name image number) := by
  unfold checkBand
  dsimp only
  split <;> trivial

theorem ofName_unresolved (c : Catalog) (name : String) : (c.unresolved name).OfName name := by
  unfold unresolved
  dsimp only
  split
  · rfl
  · next n _ =>
    split
    · rfl
    · next image _ =>
      have hcheck := c.meets_checkBand name image n.band
      split
      · rfl
      · next e he => rwa [he] at hcheck

theorem meets_asked (c : Catalog) (name : String) :
    Meets (fun _ => True) (Failure.OfName name) (c.asked name) := by
  unfold asked
  split
  · exact c.ofName_unresolved name
  · split
    · exact c.ofName_unresolved name
    · refine (c.meets_checkBand name _ _).bind fun band _ => ?_
      split <;> trivial

/-- A name that cannot be looked up has a failure of its own. -/
theorem ofName_of_resolve {name : String} {e : Failure} (h : c.resolve name = .error e) :
    e.OfName name := by
  cases hname : c.names.lookup name with
  | some slot =>
    rw [resolve_of_lookup hname] at h
    cases h
  | none =>
    have hasked := c.meets_asked name
    rw [resolve_of_not_used hname] at h
    cases hresult : c.asked name with
    | ok key =>
      rw [hresult] at h
      cases h
    | error e' =>
      rw [hresult] at h hasked
      cases h
      exact hasked

/-- Whether a name leads to a variable, found or made. -/
def resolves (c : Catalog) (name : String) : Bool := (c.resolve name).isOk

/-- Whether a name asks for a band that its input does not have or for a window with an even
side. -/
def misfits (c : Catalog) (name : String) : Bool :=
  match c.resolve name with
  | .error (.bandOutOfRange ..) | .error (.evenWindow ..) => true
  | _ => false

theorem Interchangeable.resolves (h : c.Interchangeable c') (name : String) :
    c'.resolves name = c.resolves name := by
  unfold Catalog.resolves
  rcases h.resolve name with ⟨e, he, he'⟩ | ⟨_, _, _, _, hr, hr', -⟩
  · rw [he, he']
  · rw [hr, hr']
    rfl

theorem Interchangeable.misfits (h : c.Interchangeable c') (name : String) :
    c'.misfits name = c.misfits name := by
  unfold Catalog.misfits
  rcases h.resolve name with ⟨e, he, he'⟩ | ⟨_, _, _, _, hr, hr', -⟩
  · rw [he, he']
  · rw [hr, hr']

/-- A name that leads nowhere and is not amiss otherwise is unknown. -/
theorem unknown_of_not_misfits {name : String} (hname : c.misfits name = false) {e : Failure}
    (h : c.resolve name = .error e) : ∃ text, e = .unknownVariables text [name] := by
  have hof := ofName_of_resolve h
  unfold misfits at hname
  rw [h] at hname
  cases e with
  | unknownVariables text names => exact ⟨text, by rw [show names = [name] from hof]⟩
  | bandOutOfRange | evenWindow => cases hname
  | _ => exact hof.elim

/-! ### Resolving names -/

/-- If names are not resolved, one of them has a failure of its own. -/
theorem meets_resolveAll (c : Catalog) (names : List String) :
    Meets (fun _ => True) (fun e => ∃ name, e.OfName name) (c.resolveAll names).1 := by
  induction names generalizing c with
  | nil => trivial
  | cons name rest ih =>
    unfold resolveAll
    split
    · next slot mid _ => exact (ih mid).map fun _ _ => trivial
    · exact (ih c).map fun _ _ => trivial
    · next e _ hresolve => exact ⟨name, ofName_of_resolve hresolve⟩

/-- Names none of which is amiss are resolved, and those that lead nowhere are gathered. -/
theorem WellFormed.unknown_resolveAll (hc : c.WellFormed) {names : List String}
    (h : ∀ name ∈ names, c.misfits name = false) : ∃ r, (c.resolveAll names).1 = .ok r ∧
      r.unknown = names.filter fun name => !c.resolves name := by
  induction names generalizing c with
  | nil => exact ⟨_, rfl, rfl⟩
  | cons name rest ih =>
    obtain ⟨hname, hrest⟩ := List.forall_mem_cons.1 h
    unfold Catalog.resolveAll
    cases hresolve : c.resolve name with
    | ok result =>
      obtain ⟨slot, mid⟩ := result
      have hsame := hc.interchangeable_resolve hresolve
      obtain ⟨r, hr, hunknown⟩ := ih (hc.resolve hresolve).1 fun other hother =>
        (hsame.misfits other).trans (hrest other hother)
      have hresolves : c.resolves name = true := by rw [resolves, hresolve]; rfl
      refine ⟨{ r with slots := (name, slot) :: r.slots }, ?_, ?_⟩
      · dsimp only
        rw [hr]
        rfl
      · rw [List.filter_cons_of_neg (by rw [hresolves]; exact Bool.false_ne_true)]
        exact hunknown.trans (List.filter_congr fun other _ => by rw [hsame.resolves])
    | error e =>
      obtain ⟨text, rfl⟩ := unknown_of_not_misfits hname hresolve
      obtain ⟨r, hr, hunknown⟩ := ih hc hrest
      have hresolves : c.resolves name = false := by rw [resolves, hresolve]; rfl
      refine ⟨{ r with unknown := [name] ++ r.unknown }, ?_, ?_⟩
      · dsimp only
        rw [hr]
        rfl
      · rw [List.filter_cons_of_pos (by rw [hresolves]; rfl), hunknown]
        rfl

/-! ### Compiling -/

/-- A formula whose names all lead to slots is bound, and it is tried out on the placeholders of
these. -/
theorem WellFormed.bound_bindResolved (hc : c.WellFormed) {f : Formula} {r : Resolution}
    (hnames : r.slots.map (·.1) = f.identifiers)
    (hslots : ∀ p ∈ r.slots, c.names.lookup p.1 = some p.2) :
    ∃ p, bindResolved f r.slots = .ok p ∧ Bound p.tree.references c.placeholders := by
  let place := fun name => (r.slots.lookup name).getD 0
  have hplace : ∀ name ∈ f.tree.references, (name, place name) ∈ r.slots ∧
      r.slots.lookup name = some (place name) := by
    intro name hname
    have hidentifier : name ∈ r.slots.map (·.1) := hnames ▸ List.mem_eraseDups.2 hname
    obtain ⟨p, hp, rfl⟩ := List.mem_map.1 hidentifier
    cases hlookup : r.slots.lookup p.1 with
    | none => exact absurd rfl (lookup_eq_none_iff_ne.1 hlookup p hp)
    | some slot =>
      have hat : place p.1 = slot := congrArg (·.getD 0) hlookup
      rw [hat]
      exact ⟨mem_of_lookup hlookup, rfl⟩
  refine ⟨⟨f.tree.rename place⟩, bindResolved_eq fun name hname => (hplace name hname).2, ?_⟩
  rw [f.tree.references_rename]
  intro slot hslot
  obtain ⟨name, hname, rfl⟩ := List.mem_map.1 hslot
  have hlt := hc.slot_lt _ (mem_of_lookup (hslots _ (hplace name hname).1))
  exact ⟨_, by rw [getElem?_placeholders, Array.getElem?_eq_getElem hlt, Option.map_some]⟩

/-- What goes wrong when a bound formula is tried out is a failure of its text, and no name is
unknown. -/
theorem fault_of_finish {f : Formula} {p : Program} {t : PixelType}
    (hbound : Bound p.tree.references c.placeholders) {e : Failure}
    (h : c.finish f p t = .error e) : e.formula? = some f.source ∧
      ∀ text names, e ≠ .unknownVariables text names := by
  have hprobe := p.overValues_probe hbound
  unfold finish at h
  split at h
  · next fault hfault =>
    rw [hfault] at hprobe
    cases h
    exact ⟨Failure.formula?_ofEvalError hprobe _, fun _ _ => Failure.ofEvalError_ne_unknown⟩
  · split at h
    · cases h
      exact ⟨rfl, fun _ _ heq => nomatch heq⟩
    · cases h

/-- The three ways in which a compilation goes wrong after the text has been read: a name has a
failure of its own, names are unknown, or the bound formula fails. -/
theorem WellFormed.compile_of_parse (hc : c.WellFormed) {text : String} {f : Formula}
    (hparse : Formula.parse text = .ok f) (t : PixelType) {e : Failure}
    (h : (c.compile text t).1 = .error e) :
    (∃ e' name, (c.resolveAll f.identifiers).1 = .error e' ∧ e'.OfName name ∧
        e = e'.inFormula text) ∨
      ∃ r, (c.resolveAll f.identifiers).1 = .ok r ∧
        if r.unknown = [] then
          e.formula? = some text ∧ ∀ text' names, e ≠ .unknownVariables text' names
        else e = .unknownVariables text r.unknown := by
  have hsource := Formula.source_of_parse hparse
  unfold Catalog.compile at h
  rw [hparse] at h
  dsimp only at h
  cases hresult : c.resolveAll f.identifiers with
  | mk result mid =>
  rw [hresult] at h
  cases result with
  | error e' =>
    cases h
    have hmeets := c.meets_resolveAll f.identifiers
    rw [hresult] at hmeets
    obtain ⟨name, hname⟩ := hmeets
    exact Or.inl ⟨e', name, rfl, hname, rfl⟩
  | ok r =>
    refine Or.inr ⟨r, rfl, ?_⟩
    dsimp only at h
    by_cases hunknown : r.unknown = []
    · obtain ⟨hnames, hslots⟩ := lookup_of_resolveAll hc hresult hunknown
      have hmid : mid.WellFormed := by
        have := (hc.resolveAll f.identifiers).1
        rwa [hresult] at this
      obtain ⟨p, hp, hbound⟩ := hmid.bound_bindResolved hnames hslots
      rw [if_pos (List.isEmpty_iff.2 hunknown), hp] at h
      rw [if_pos hunknown, ← hsource]
      exact fault_of_finish hbound h
    · rw [if_neg fun hempty => hunknown (List.isEmpty_iff.1 hempty)] at h
      cases h
      rw [if_neg hunknown]

/-- Names that have been gathered as unknown are reported. -/
theorem compile_of_unknown {text : String} {f : Formula} (hparse : Formula.parse text = .ok f)
    {r : Resolution} (hr : (c.resolveAll f.identifiers).1 = .ok r) (hunknown : r.unknown ≠ [])
    (t : PixelType) : (c.compile text t).1 = .error (.unknownVariables text r.unknown) := by
  unfold compile
  rw [hparse]
  dsimp only
  cases hresult : c.resolveAll f.identifiers with
  | mk result mid =>
  rw [hresult] at hr
  obtain rfl : result = .ok r := hr
  dsimp only
  rw [if_neg fun hempty => hunknown (List.isEmpty_iff.1 hempty)]

/-- Whatever goes wrong in a compilation, the failure carries the text. -/
theorem WellFormed.formula?_of_compile (hc : c.WellFormed) {text : String} {t : PixelType}
    {e : Failure} (h : (c.compile text t).1 = .error e) : e.formula? = some text := by
  cases hparse : Formula.parse text with
  | error fault =>
    unfold Catalog.compile at h
    rw [hparse] at h
    cases h
    rfl
  | ok f =>
    rcases hc.compile_of_parse hparse t h with ⟨e', name, -, hname, rfl⟩ | ⟨r, -, hfault⟩
    · exact hname.formula?_inFormula text
    · split at hfault
      · exact hfault.1
      · rw [hfault]
        rfl

/-- **Diagnosis**: a compilation against a reachable catalog fails with a failure that carries the
text. If the text is a formula none of whose names is amiss otherwise, it fails over unknown names
exactly when some name leads nowhere, and the names it reports then are all those that do, once
each, in the order in which they first appear in the formula. -/
theorem Reachable.diagnosis {c : Catalog} (hc : c.Reachable) (text : String) (t : PixelType) :
    (∀ e, (c.compile text t).1 = .error e → e.formula? = some text) ∧
      ∀ f, Formula.parse text = .ok f → (∀ name ∈ f.identifiers, c.misfits name = false) →
        ((∃ text' names, (c.compile text t).1 = .error (.unknownVariables text' names)) ↔
          ∃ name ∈ f.identifiers, c.resolves name = false) ∧
        ∀ text' names, (c.compile text t).1 = .error (.unknownVariables text' names) →
          names.Nodup ∧
          (∀ name, name ∈ names ↔ name ∈ f.tree.references ∧ c.resolves name = false) ∧
          names.Pairwise fun a b => f.tree.references.idxOf a < f.tree.references.idxOf b := by
  have hwell := hc.wellFormed
  refine ⟨fun e he => hwell.formula?_of_compile he, fun f hparse hfits => ?_⟩
  obtain ⟨r, hr, hunknown⟩ := hwell.unknown_resolveAll hfits
  -- what is reported as unknown is what has been gathered
  have hreported : ∀ text' names, (c.compile text t).1 = .error (.unknownVariables text' names) →
      r.unknown ≠ [] ∧ names = r.unknown := by
    intro text' names h
    rcases hwell.compile_of_parse hparse t h with ⟨e', _, he', -, -⟩ | ⟨r', hr', hfault⟩
    · rw [hr] at he'
      cases he'
    · obtain rfl : r' = r := Except.ok.inj (hr'.symm.trans hr)
      split at hfault
      · exact absurd rfl (hfault.2 text' names)
      · next hsome =>
        cases hfault
        exact ⟨hsome, rfl⟩
  have hmem : ∀ name, name ∈ r.unknown ↔ name ∈ f.identifiers ∧ c.resolves name = false := by
    intro name
    rw [hunknown, List.mem_filter, Bool.not_eq_true']
  refine ⟨⟨?_, ?_⟩, fun text' names h => ?_⟩
  · rintro ⟨text', names, h⟩
    obtain ⟨name, hname⟩ := List.exists_mem_of_ne_nil _ (hreported text' names h).1
    exact ⟨name, (hmem name).1 hname⟩
  · rintro ⟨name, hname⟩
    exact ⟨text, r.unknown, compile_of_unknown hparse hr
      (List.ne_nil_of_mem ((hmem name).2 hname)) t⟩
  · have hordered : r.unknown.Pairwise fun a b =>
        f.tree.references.idxOf a < f.tree.references.idxOf b := by
      rw [hunknown]
      exact (pairwise_idxOf_eraseDups f.tree.references).filter _
    obtain ⟨-, rfl⟩ := hreported text' names h
    refine ⟨hordered.imp fun {a b} hlt heq => ?_, fun name => ?_, hordered⟩
    · rw [heq] at hlt
      exact Nat.lt_irrefl _ hlt
    · rw [hmem name, Formula.identifiers, List.mem_eraseDups]

namespace Sample

/-- A formula with two names that nothing answers to, one of them used twice. -/
def stray : Formula := valueOf (Formula.parse "foo + ab1 * bar - foo") (by decide +kernel)

end Sample

/-- Two unknown names, one of them used twice, beside a name that leads to a variable. -/
theorem compile_stray :
    let c := Sample.aliased.2
    let text := "foo + ab1 * bar - foo"
    c.Reachable ∧ Formula.parse text = .ok Sample.stray ∧
      (∀ name ∈ Sample.stray.identifiers, c.misfits name = false) ∧
      ∃ names, (c.compile text .f64).1 = .error (.unknownVariables text names) ∧ names.Nodup ∧
        ∀ name, name ∈ names ↔ name ∈ ["foo", "ab1", "bar", "foo"] ∧ c.resolves name = false := by
  intro c text
  have hparse : Formula.parse text = .ok Sample.stray := eq_ok_valueOf _
  have hreferences : Sample.stray.tree.references = ["foo", "ab1", "bar", "foo"] := by
    decide +kernel
  have hfits : ∀ name ∈ Sample.stray.identifiers, c.misfits name = false := by decide +kernel
  obtain ⟨hcarries, hnames⟩ := Sample.aliased_reachable.diagnosis text .f64
  obtain ⟨hiff, hreported⟩ := hnames _ hparse hfits
  obtain ⟨text', names, hcompile⟩ := hiff.2 ⟨"foo", by decide +kernel, by decide +kernel⟩
  obtain rfl : text' = text := Option.some.inj (hcarries _ hcompile)
  obtain ⟨hnodup, hmem, -⟩ := hreported _ _ hcompile
  rw [hreferences] at hmem
  exact ⟨Sample.aliased_reachable, hparse, hfits, names, hcompile, hnodup, hmem⟩

end Catalog

end MapAlgebra
