import MapAlgebra.Proofs.Catalog.Asked
import MapAlgebra.Proofs.Expr.Locality
import MapAlgebra.Proofs.Expr.Probe

/-!
# Settled formulas

A formula that has been compiled is settled: its names lead to the slots its program reads, and a
probe of the program gives what it writes (`Compiled.Settled`). What a catalog knows never changes,
so a settled formula stays settled however the catalog grows (**`Compiled.Settled.grows`**), and
compiling it again gives the same formula and leaves the catalog as it is
(**`Compiled.Settled.compile`**).
-/

namespace MapAlgebra

open MapAlgebra.Expr

/-- A formula that is read has the text it is read off. -/
theorem Expr.Formula.source_of_parse {text : String} {f : Formula}
    (h : Formula.parse text = .ok f) : f.source = text := by
  unfold Formula.parse at h
  split at h
  · cases h
  · split at h
    · cases h
      rfl
    · cases h

/-! ### Resolving names -/

namespace Catalog

variable {c c' : Catalog}

/-- Names that are there are resolved to their slots. -/
theorem resolveAll_of_lookup {slots : List (String × Nat)}
    (h : ∀ p ∈ slots, c.names.lookup p.1 = some p.2) :
    c.resolveAll (slots.map (·.1)) = (.ok ⟨slots, []⟩, c) := by
  induction slots with
  | nil => rfl
  | cons p slots ih =>
    obtain ⟨hp, hslots⟩ := List.forall_mem_cons.1 h
    have hresolve : c.resolve p.1 = .ok (p.2, c) := resolve_of_lookup hp
    rw [List.map_cons, resolveAll, hresolve]
    dsimp only
    rw [ih hslots]
    rfl

/-- The checks of a band fail with a fault of their own. -/
theorem checkBand_ne_unknown {name text : String} {image number : Nat} {names : List String} :
    c.checkBand name image number ≠ .error (.unknownVariables text names) := by
  intro hcheck
  unfold checkBand at hcheck
  dsimp only at hcheck
  split at hcheck <;> cases hcheck

/-- A name that leads nowhere is reported itself, if it is reported as unknown. -/
theorem unknown_of_unresolved {name text : String} {names : List String}
    (h : c.unresolved name = .unknownVariables text names) : names = [name] := by
  unfold unresolved at h
  dsimp only at h
  split at h
  · cases h
    rfl
  · split at h
    · cases h
      rfl
    · split at h
      · cases h
        rfl
      · next hcheck =>
        rw [h] at hcheck
        exact absurd hcheck checkBand_ne_unknown

/-- A window that cannot be made is not reported as unknown. -/
theorem resolveWindow?_ne_unknown {name text : String} {names : List String} :
    c.resolveWindow? name ≠ some (.error (.unknownVariables text names)) := by
  intro h
  unfold resolveWindow? at h
  obtain ⟨n, -, h⟩ := Option.bind_eq_some_iff.1 h
  obtain ⟨image, -, h⟩ := Option.bind_eq_some_iff.1 h
  have hfault := Option.some.inj h
  cases hcheck : c.checkBand name image n.band with
  | error e =>
    rw [hcheck] at hfault
    cases hfault
    exact absurd hcheck checkBand_ne_unknown
  | ok band =>
    rw [hcheck] at hfault
    cases hsides : Window.ofSides n.width n.height <;>
    · simp only [hsides, bind, Except.bind] at hfault
      cases hfault

/-- A name that is unknown is reported itself. -/
theorem unknown_of_resolve {name text : String} {names : List String}
    (h : c.resolve name = .error (.unknownVariables text names)) : names = [name] := by
  unfold resolve at h
  split at h
  · cases h
  · cases hwindow : c.resolveWindow? name with
    | none =>
      rw [hwindow] at h
      exact unknown_of_unresolved (Except.error.inj h)
    | some result =>
      rw [hwindow, Option.getD_some] at h
      exact absurd (h ▸ hwindow) resolveWindow?_ne_unknown

/-- If no name is unknown, all names lead to the slots they are resolved to from then on. -/
theorem lookup_of_resolveAll (h : c.WellFormed) {names : List String} {r : Resolution}
    (hresolved : c.resolveAll names = (.ok r, c')) (hunknown : r.unknown = []) :
    r.slots.map (·.1) = names ∧ ∀ p ∈ r.slots, c'.names.lookup p.1 = some p.2 := by
  induction names generalizing c r with
  | nil =>
    cases hresolved
    exact ⟨rfl, List.forall_mem_nil _⟩
  | cons name rest ih =>
    unfold resolveAll at hresolved
    split at hresolved
    · next slot mid hresolve =>
      obtain ⟨hmid, -, hname⟩ := h.resolve hresolve
      have hgrows := (hmid.resolveAll rest).2
      cases hrest : mid.resolveAll rest with
      | mk result c'' =>
        rw [hrest] at hresolved hgrows
        cases result with
        | error e => cases hresolved
        | ok r' =>
          cases hresolved
          obtain ⟨hnames, hslots⟩ := ih hmid hrest hunknown
          exact ⟨congrArg (name :: ·) hnames, List.forall_mem_cons.2 ⟨hgrows.names hname, hslots⟩⟩
    · next text unknown hresolve =>
      obtain rfl := unknown_of_resolve hresolve
      cases hrest : c.resolveAll rest with
      | mk result c'' =>
        rw [hrest] at hresolved
        cases result with
        | error e => cases hresolved
        | ok r' =>
          cases hresolved
          cases hunknown
    · cases hresolved

end Catalog

/-! ### Settled formulas -/

/-- A formula is what a compilation makes of its text without looking anything up anew: the names of
the formula the text is lead to `slots`, and a probe gives the row of the components it writes. -/
def Compiled.Settled (e : Compiled) (c : Catalog) : Prop :=
  ∃ (f : Formula) (slots : List (String × Nat)) (v : Value) (row : List Float),
    Formula.parse e.source = .ok f ∧ slots.map (·.1) = f.identifiers ∧
      (∀ p ∈ slots, c.names.lookup p.1 = some p.2) ∧
      Catalog.bindResolved f slots = .ok e.program ∧
      e.program.probe c.placeholders = .ok v ∧ v.asRow? = some row ∧
      e.names = f.identifiers ∧ e.shape = v.shape ∧ e.output.bands = row.length

/-- A formula compiled again against a catalog that knows the same of it. -/
def Compiled.renewed (e : Compiled) (c : Catalog) : Compiled :=
  { e with generation := c.generation }

namespace Compiled

variable {e : Compiled} {c c' : Catalog}

/-- What has been compiled is settled. -/
theorem settled_of_compile (h : c.WellFormed) {text : String} {t : PixelType}
    (hcompile : c.compile text t = (.ok e, c')) : e.Settled c' := by
  unfold Catalog.compile at hcompile
  split at hcompile
  · cases hcompile
  · next f hparse =>
    have hsource := Formula.source_of_parse hparse
    split at hcompile
    · cases hcompile
    · next r c'' hresolved =>
      split at hcompile
      · next hunknown =>
        obtain ⟨hnames, hslots⟩ :=
          Catalog.lookup_of_resolveAll h hresolved (List.isEmpty_iff.1 hunknown)
        split at hcompile
        · cases hcompile
        · next program hprogram =>
          unfold Catalog.finish at hcompile
          split at hcompile
          · cases hcompile
          · next v hprobe =>
            split at hcompile
            · cases hcompile
            · next row hrow =>
              cases hcompile
              exact ⟨f, r.slots, v, row, hsource ▸ hparse, hnames, hslots, hprogram, hprobe, hrow,
                rfl, rfl, rfl⟩
      · cases hcompile

namespace Settled

/-- **Growth**: a settled formula stays settled when the catalog grows. -/
theorem grows (h : e.Settled c) (hgrows : c.Grows c') : e.Settled c' := by
  obtain ⟨f, slots, v, row, hparse, hnames, hslots, hprogram, hprobe, hrest⟩ := h
  refine ⟨f, slots, v, row, hparse, hnames, fun p hp => hgrows.names (hslots p hp), hprogram, ?_,
    hrest⟩
  -- the program reads slots that the catalog had, and these have their variables still
  have hagree : AgreeOn e.program.tree.references c.placeholders c'.placeholders := by
    intro slot hslot
    obtain ⟨x, hx⟩ := e.program.tree.bound_of_probe hprobe slot hslot
    rw [hx]
    simp only [Catalog.placeholders, Array.getElem?_map, Option.map_eq_some_iff] at hx ⊢
    obtain ⟨held, hheld, rfl⟩ := hx
    rw [hgrows.slots slot held hheld, Option.map_some]
  unfold Program.probe at hprobe ⊢
  rw [← e.program.tree.eval_congr hagree, hprobe]

/-- **Compiling again** gives a settled formula once more and leaves the catalog. -/
theorem compile (h : e.Settled c) :
    c.compile e.source e.output.pixelType = (.ok (e.renewed c), c) := by
  obtain ⟨f, slots, v, row, hparse, hnames, hslots, hprogram, hprobe, hrow, hidentifiers, hshape,
    hbands⟩ := h
  have hresolved := Catalog.resolveAll_of_lookup hslots
  rw [hnames] at hresolved
  have hsource := Formula.source_of_parse hparse
  unfold Catalog.compile
  rw [hparse]
  dsimp only
  rw [hresolved]
  dsimp only
  rw [List.isEmpty_nil, if_pos rfl, hprogram]
  dsimp only
  unfold Catalog.finish
  rw [hprobe]
  dsimp only
  rw [hrow]
  dsimp only
  rw [hsource, ← hidentifiers, ← hshape, ← hbands]
  rfl

end Settled

end Compiled

end MapAlgebra
