import MapAlgebra.Proofs.Catalog.Representation
import MapAlgebra.Proofs.Catalog.Settled
import MapAlgebra.Proofs.Catalog.Standing
import MapAlgebra.Proofs.Expr.Renaming
import MapAlgebra.Proofs.Pass.Slots

/-!
# Interchangeable catalogs

Two catalogs are interchangeable if a name means one variable to both, found or made, though perhaps
in different slots (`Catalog.Interchangeable`). Looking up names does not tell a catalog from what
it was before: what a name means is settled by the inputs, their roots and what has been declared
(**`WellFormed.interchangeable_resolve`**). Compiling a text against interchangeable catalogs has
one outcome, up to the numbers of slots: **`Interchangeable.compile`**.
-/

namespace MapAlgebra

open MapAlgebra.Expr

namespace Catalog

variable {c c' : Catalog}

/-! ### What names mean -/

/-- The variable that a name leads to when it is looked up, or why it leads to none. -/
def variableOf (c : Catalog) (name : String) : Except Failure (Option Variable) :=
  (c.resolve name).map fun (slot, c) => c.slots[slot]?

theorem variableOf_of_lookup {name : String} {slot : Nat}
    (hname : c.names.lookup name = some slot) : c.variableOf name = .ok c.slots[slot]? := by
  unfold variableOf
  rw [resolve_of_lookup hname]
  rfl

/-- A name that is not in use means the window that it asks for. -/
theorem WellFormed.variableOf_of_not_used (hc : c.WellFormed) {name : String}
    (hname : c.names.lookup name = none) : c.variableOf name =
      (c.asked name).map fun key => some ⟨windowName key, .window key⟩ := by
  unfold variableOf
  rw [resolve_of_not_used hname]
  cases c.asked name with
  | error e => rfl
  | ok key => exact congrArg Except.ok (hc.getElem?_addWindow name key)

/-- Names mean the same to two catalogs of the same inputs. -/
structure Interchangeable (c c' : Catalog) : Prop where
  /-- They have the same inputs. -/
  inputs : c'.inputs = c.inputs
  /-- They are of one generation. -/
  generation : c'.generation = c.generation
  /-- A name means one variable to both, or it means none to both, for one reason. -/
  variableOf : ∀ name, c'.variableOf name = c.variableOf name

namespace Interchangeable

theorem refl (c : Catalog) : c.Interchangeable c := ⟨rfl, rfl, fun _ => rfl⟩

theorem symm (h : c.Interchangeable c') : c'.Interchangeable c :=
  ⟨h.inputs.symm, h.generation.symm, fun name => (h.variableOf name).symm⟩

theorem trans {c'' : Catalog} (h : c.Interchangeable c') (h' : c'.Interchangeable c'') :
    c.Interchangeable c'' :=
  ⟨h'.inputs.trans h.inputs, h'.generation.trans h.generation,
    fun name => (h'.variableOf name).trans (h.variableOf name)⟩

end Interchangeable

/-! ### Looking up names -/

@[simp] theorem generation_addWindow (c : Catalog) (name : String) (key : WindowKey) :
    (c.addWindow name key).2.generation = c.generation := by
  unfold addWindow
  cases c.windows.lookup key <;> rfl

/-- Making a window that a name asks for changes the meaning of no name. -/
theorem WellFormed.interchangeable_addWindow (hc : c.WellFormed) {name : String} {key : WindowKey}
    (hname : c.names.lookup name = none) (hasked : c.asked name = .ok key) :
    c.Interchangeable (c.addWindow name key).2 where
  inputs := inputs_addWindow c name key
  generation := generation_addWindow c name key
  variableOf := by
    have hresolve : c.resolve name =
        .ok ((c.addWindow name key).1, (c.addWindow name key).2) := by
      rw [resolve_of_not_used hname, hasked]
      rfl
    obtain ⟨hdone, hgrows, -⟩ := hc.resolve hresolve
    intro other
    cases hother : c.names.lookup other with
    | some slot =>
      have hlt : slot < c.slots.size := hc.slot_lt _ (mem_of_lookup hother)
      have hv : c.slots[slot]? = some c.slots[slot] := Array.getElem?_eq_getElem hlt
      rw [variableOf_of_lookup hother, variableOf_of_lookup (hgrows.names hother), hv,
        hgrows.slots _ _ hv]
    | none =>
      rw [hc.variableOf_of_not_used hother]
      have hsame : (c.addWindow name key).2.asked other = c.asked other :=
        asked_congr (inputs_addWindow c name key) (roots_addWindow c name key) other
      cases hnew : (c.addWindow name key).2.names.lookup other with
      | none => rw [hdone.variableOf_of_not_used hnew, hsame]
      | some slot =>
        -- the name has come into use with the window, so it asked for the window before
        obtain ⟨hasks, hslot⟩ := (mem_names_addWindow (mem_of_lookup hnew)).resolve_left
          fun hold => absurd rfl (lookup_eq_none_iff_ne.1 hother _ hold)
        have hother' : c.asked other = .ok key := by
          rcases hasks with rfl | rfl
          · exact hasked
          · exact hc.asked_windowName hasked
        dsimp only at hslot
        rw [variableOf_of_lookup hnew, hother', hslot, hc.getElem?_addWindow name key]
        rfl

/-- **Looking up a name** changes the meaning of no name. -/
theorem WellFormed.interchangeable_resolve (hc : c.WellFormed) {name : String} {slot : Nat}
    (hresolve : c.resolve name = .ok (slot, c')) : c.Interchangeable c' := by
  cases hname : c.names.lookup name with
  | some slot' =>
    rw [resolve_of_lookup hname] at hresolve
    cases hresolve
    exact .refl c
  | none =>
    obtain ⟨key, hasked, hadd⟩ := addWindow_of_resolve hname hresolve
    have hsame := hc.interchangeable_addWindow hname hasked
    rwa [hadd] at hsame

theorem WellFormed.interchangeable_resolveAll (hc : c.WellFormed) (names : List String) :
    c.Interchangeable (c.resolveAll names).2 := by
  induction names generalizing c with
  | nil => exact .refl c
  | cons name rest ih =>
    unfold Catalog.resolveAll
    split
    · next slot mid hresolve =>
      exact (hc.interchangeable_resolve hresolve).trans (ih (hc.resolve hresolve).1)
    · exact ih hc
    · exact .refl c

/-- Compiling a formula, whether it is refused or not, changes the meaning of no name. -/
theorem WellFormed.interchangeable_compile (hc : c.WellFormed) (text : String) (t : PixelType) :
    c.Interchangeable (c.compile text t).2 := by
  rcases compile_snd c text t with hsame | ⟨names, hresolved⟩
  · rw [hsame]
    exact .refl c
  · rw [hresolved]
    exact hc.interchangeable_resolveAll names

/-- A name is looked up alike in interchangeable catalogs. -/
theorem Interchangeable.resolve (h : c.Interchangeable c') (name : String) :
    (∃ e, c.resolve name = .error e ∧ c'.resolve name = .error e) ∨
      ∃ slot mid slot' mid', c.resolve name = .ok (slot, mid) ∧
        c'.resolve name = .ok (slot', mid') ∧ mid'.slots[slot']? = mid.slots[slot]? := by
  have hsame := h.variableOf name
  unfold Catalog.variableOf at hsame
  cases hresolve : c.resolve name with
  | error e =>
    cases hresolve' : c'.resolve name with
    | error e' =>
      rw [hresolve, hresolve'] at hsame
      cases hsame
      exact Or.inl ⟨e, rfl, rfl⟩
    | ok _ =>
      rw [hresolve, hresolve'] at hsame
      cases hsame
  | ok r =>
    cases hresolve' : c'.resolve name with
    | error _ =>
      rw [hresolve, hresolve'] at hsame
      cases hsame
    | ok r' =>
      rw [hresolve, hresolve'] at hsame
      exact Or.inr ⟨_, _, _, _, rfl, rfl, Except.ok.inj hsame⟩

/-! ### Resolving names -/

/-- A slot of a catalog and one of another catalog hold one variable. -/
def SameVariable (c c' : Catalog) (slot slot' : Nat) : Prop :=
  ∃ v, c.slots[slot]? = some v ∧ c'.slots[slot']? = some v

theorem SameVariable.extends {later later' : Catalog} {slot slot' : Nat}
    (h : SameVariable c c' slot slot') (hlater : c.Extends later) (hlater' : c'.Extends later') :
    SameVariable later later' slot slot' := by
  obtain ⟨v, hv, hv'⟩ := h
  exact ⟨v, hlater slot v hv, hlater' slot' v hv'⟩

/-- Names have been resolved alike: the same are unknown, and each of the others leads to one
variable in both catalogs. -/
structure Matched (c c' : Catalog) (r r' : Resolution) : Prop where
  /-- The same names are unknown. -/
  unknown : r'.unknown = r.unknown
  /-- The same names lead to one variable each. -/
  slots : List.Forall₂ (fun p p' => p.1 = p'.1 ∧ SameVariable c c' p.2 p'.2) r.slots r'.slots

/-- Names are resolved alike in interchangeable catalogs. -/
theorem Interchangeable.resolveAll (h : c.Interchangeable c') (hc : c.WellFormed)
    (hc' : c'.WellFormed) (names : List String) :
    (∃ e, (c.resolveAll names).1 = .error e ∧ (c'.resolveAll names).1 = .error e) ∨
      ∃ r r', (c.resolveAll names).1 = .ok r ∧ (c'.resolveAll names).1 = .ok r' ∧
        Matched (c.resolveAll names).2 (c'.resolveAll names).2 r r' := by
  induction names generalizing c c' with
  | nil => exact Or.inr ⟨_, _, rfl, rfl, rfl, .nil⟩
  | cons name rest ih =>
    unfold Catalog.resolveAll
    rcases h.resolve name with ⟨e, hresolve, hresolve'⟩ |
      ⟨slot, mid, slot', mid', hresolve, hresolve', hsame⟩
    · rw [hresolve, hresolve']
      cases e with
      | unknownVariables text unknown =>
        dsimp only
        rcases ih h hc hc' with ⟨e, hrest, hrest'⟩ | ⟨r, r', hrest, hrest', hmatched⟩
        · rw [hrest, hrest']
          exact Or.inl ⟨e, rfl, rfl⟩
        · rw [hrest, hrest']
          exact Or.inr ⟨_, _, rfl, rfl, congrArg (unknown ++ ·) hmatched.unknown, hmatched.slots⟩
      | _ => exact Or.inl ⟨_, rfl, rfl⟩
    · rw [hresolve, hresolve']
      dsimp only
      obtain ⟨hmid, -, hname⟩ := hc.resolve hresolve
      have hmid' := (hc'.resolve hresolve').1
      -- both catalogs have gone on to catalogs that are interchangeable again
      have hgone : mid.Interchangeable mid' := (hc.interchangeable_resolve hresolve).symm.trans
        (h.trans (hc'.interchangeable_resolve hresolve'))
      rcases ih hgone hmid hmid' with ⟨e, hrest, hrest'⟩ | ⟨r, r', hrest, hrest', hmatched⟩
      · rw [hrest, hrest']
        exact Or.inl ⟨e, rfl, rfl⟩
      · rw [hrest, hrest']
        have hlt := hmid.slot_lt _ (mem_of_lookup hname)
        have hv : mid.slots[slot]? = some mid.slots[slot] := Array.getElem?_eq_getElem hlt
        have hfirst : SameVariable mid mid' slot slot' := ⟨_, hv, hsame.trans hv⟩
        exact Or.inr ⟨_, _, rfl, rfl, hmatched.unknown, .cons ⟨rfl, hfirst.extends
          (hmid.resolveAll rest).2.slots (hmid'.resolveAll rest).2.slots⟩ hmatched.slots⟩

/-- What two lists of pairs, item by item of one first part, have for it. -/
theorem lookup_of_forall₂ {α β γ : Type} [BEq α] [LawfulBEq α] {R : β → γ → Prop}
    {l : List (α × β)} {l' : List (α × γ)}
    (h : List.Forall₂ (fun p p' => p.1 = p'.1 ∧ R p.2 p'.2) l l') {a : α} (ha : a ∈ l.map (·.1)) :
    ∃ b b', l.lookup a = some b ∧ l'.lookup a = some b' ∧ R b b' := by
  induction h with
  | nil => cases ha
  | @cons p p' l l' hfirst _ ih =>
    obtain ⟨k, b⟩ := p
    obtain ⟨k', b'⟩ := p'
    obtain ⟨rfl, hr⟩ : k = k' ∧ R b b' := hfirst
    by_cases hak : a = k
    · rw [hak]
      exact ⟨b, b', List.lookup_cons_self, List.lookup_cons_self, hr⟩
    · rw [lookup_cons_of_ne hak, lookup_cons_of_ne hak]
      exact ih ((List.mem_cons.1 ha).resolve_left hak)

/-! ### Renumbering -/

/-- The slot of another catalog in which the variable of a slot is. -/
def renumber (c c' : Catalog) (slot : Nat) : Nat :=
  ((c.slots[slot]?).bind fun v => c'.names.lookup v.name).getD slot

theorem renumber_eq (hc' : c'.WellFormed) {slot slot' : Nat} (h : SameVariable c c' slot slot') :
    c.renumber c' slot = slot' := by
  obtain ⟨v, hv, hv'⟩ := h
  unfold renumber
  rw [hv, Option.bind_some, hc'.lookup_name hv', Option.getD_some]

/-- Slots of the same variables hold the same placeholders. -/
theorem agreeAlong_placeholders {σ : Nat → Nat} {slots : List Nat}
    (h : ∀ slot ∈ slots, SameVariable c c' slot (σ slot)) :
    AgreeAlong σ slots c.placeholders c'.placeholders := by
  intro slot hslot
  obtain ⟨v, hv, hv'⟩ := h slot hslot
  refine ⟨v.kind.placeholder, ?_, ?_⟩
  · rw [getElem?_placeholders, hv, Option.map_some]
  · rw [getElem?_placeholders, hv', Option.map_some]

/-- The program of a formula all of whose names have a slot. -/
theorem bindResolved_eq {f : Formula} {slots : List (String × Nat)} {place : String → Nat}
    (h : ∀ name ∈ f.tree.references, slots.lookup name = some (place name)) :
    bindResolved f slots = .ok ⟨f.tree.rename place⟩ := by
  unfold bindResolved Formula.bind
  rw [f.tree.traverse_eq_rename (σ := place) fun name hname => by rw [h name hname]]

/-- Names that have been resolved alike are bound alike. -/
theorem Matched.bindResolved {r r' : Resolution} (h : Matched c c' r r') (hc' : c'.WellFormed)
    {f : Formula} (hnames : r.slots.map (·.1) = f.identifiers) :
    ∃ p : Program, bindResolved f r.slots = .ok p ∧
      bindResolved f r'.slots = .ok ⟨p.tree.rename (c.renumber c')⟩ ∧
      ∀ slot ∈ p.tree.references, SameVariable c c' slot (c.renumber c' slot) := by
  let place := fun name => (r.slots.lookup name).getD 0
  let place' := fun name => (r'.slots.lookup name).getD 0
  have hplace : ∀ name ∈ f.tree.references, r.slots.lookup name = some (place name) ∧
      r'.slots.lookup name = some (place' name) ∧
      SameVariable c c' (place name) (place' name) := by
    intro name hname
    have hidentifier : name ∈ r.slots.map (·.1) := hnames ▸ List.mem_eraseDups.2 hname
    obtain ⟨slot, slot', hslot, hslot', hsame⟩ := lookup_of_forall₂ h.slots hidentifier
    have hat : place name = slot := congrArg (·.getD 0) hslot
    have hat' : place' name = slot' := congrArg (·.getD 0) hslot'
    rw [hat, hat']
    exact ⟨hslot, hslot', hsame⟩
  have hrenumber : ∀ name ∈ f.tree.references, c.renumber c' (place name) = place' name :=
    fun name hname => renumber_eq hc' (hplace name hname).2.2
  refine ⟨⟨f.tree.rename place⟩, bindResolved_eq fun name hname => (hplace name hname).1, ?_, ?_⟩
  · rw [bindResolved_eq fun name hname => (hplace name hname).2.1, f.tree.rename_rename hrenumber]
  · rw [f.tree.references_rename]
    intro slot hslot
    obtain ⟨name, hname, rfl⟩ := List.mem_map.1 hslot
    rw [hrenumber name hname]
    exact (hplace name hname).2.2

/-- A program whose slots are renumbered is tried out with the same outcome. -/
theorem finish_rename {σ : Nat → Nat} {f : Formula} {p : Program}
    (hslots : ∀ slot ∈ p.tree.references, SameVariable c c' slot (σ slot))
    (hgeneration : c'.generation = c.generation) (t : PixelType) :
    c'.finish f ⟨p.tree.rename σ⟩ t =
      (c.finish f p t).map fun e => { e with program := ⟨p.tree.rename σ⟩ } := by
  have hprobe : Program.probe ⟨p.tree.rename σ⟩ c'.placeholders = p.probe c.placeholders :=
    p.tree.eval_rename (agreeAlong_placeholders hslots)
  unfold finish
  rw [hprobe, hgeneration]
  cases p.probe c.placeholders with
  | error e => rfl
  | ok v =>
    dsimp only
    cases v.asRow? <;> rfl

end Catalog

/-! ### Formulas -/

/-- A formula is another one in another catalog, but for the numbers of its slots. -/
structure Compiled.Renumbers (σ : Nat → Nat) (c c' : Catalog) (e e' : Compiled) : Prop where
  /-- They have one text. -/
  source : e'.source = e.source
  /-- The program has other slots in the places of its own. -/
  program : e'.program.tree = e.program.tree.rename σ
  /-- Different slots get different numbers. -/
  injective : ∀ slot ∈ e.program.slots, ∀ other ∈ e.program.slots, σ slot = σ other → slot = other
  /-- A slot has the variable that it had. -/
  slots : ∀ slot ∈ e.program.slots, c.SameVariable c' slot (σ slot)
  /-- They use the same names. -/
  names : e'.names = e.names
  /-- Their values are of one shape. -/
  shape : e'.shape = e.shape
  /-- They write the same raster. -/
  output : e'.output = e.output
  /-- They were compiled against catalogs of one generation. -/
  generation : e'.generation = e.generation

namespace Catalog

variable {c c' : Catalog}

theorem finish_eq_ok {f : Formula} {p : Program} {t : PixelType} {e : Compiled}
    (h : c.finish f p t = .ok e) : e.program = p := by
  unfold finish at h
  split at h
  · cases h
  · split at h
    · cases h
    · cases h
      rfl

/-- **Compiling** a text against interchangeable catalogs has one outcome: it is refused for one
reason, or gives formulas that are one but for the numbers of their slots. -/
theorem Interchangeable.compile (h : c.Interchangeable c') (hc : c.WellFormed)
    (hc' : c'.WellFormed) (text : String) (t : PixelType) :
    (∃ fault, (c.compile text t).1 = .error fault ∧ (c'.compile text t).1 = .error fault) ∨
      ∃ e e' σ, (c.compile text t).1 = .ok e ∧ (c'.compile text t).1 = .ok e' ∧
        Compiled.Renumbers σ (c.compile text t).2 (c'.compile text t).2 e e' := by
  unfold Catalog.compile
  cases Formula.parse text with
  | error e => exact Or.inl ⟨_, rfl, rfl⟩
  | ok f =>
    dsimp only
    have hresolved := h.resolveAll hc hc' f.identifiers
    have hmid := (hc.resolveAll f.identifiers).1
    have hmid' := (hc'.resolveAll f.identifiers).1
    have hgone := (hc.interchangeable_resolveAll f.identifiers).symm.trans
      (h.trans (hc'.interchangeable_resolveAll f.identifiers))
    cases hresult : c.resolveAll f.identifiers with
    | mk result mid =>
    cases hresult' : c'.resolveAll f.identifiers with
    | mk result' mid' =>
    rw [hresult, hresult'] at hresolved hgone
    rw [hresult] at hmid
    rw [hresult'] at hmid'
    rcases hresolved with ⟨e, rfl, rfl⟩ | ⟨r, r', rfl, rfl, hmatched⟩
    · exact Or.inl ⟨_, rfl, rfl⟩
    · dsimp only at hmatched hgone hmid hmid' ⊢
      rw [hmatched.unknown]
      cases hknown : r.unknown.isEmpty with
      | false => exact Or.inl ⟨_, rfl, rfl⟩
      | true =>
        obtain ⟨hnames, -⟩ := lookup_of_resolveAll hc hresult (List.isEmpty_iff.1 hknown)
        obtain ⟨p, hbind, hbind', hslots⟩ := hmatched.bindResolved hmid' hnames
        rw [if_pos rfl, if_pos rfl, hbind, hbind']
        dsimp only
        rw [finish_rename hslots hgone.generation]
        cases hfinish : mid.finish f p t with
        | error e => exact Or.inl ⟨_, rfl, rfl⟩
        | ok e =>
          obtain rfl := finish_eq_ok hfinish
          have hsame : ∀ slot ∈ e.program.slots,
              SameVariable mid mid' slot (mid.renumber mid' slot) :=
            fun slot hslot => hslots slot (List.mem_eraseDups.1 hslot)
          refine Or.inr ⟨_, _, mid.renumber mid', rfl, rfl, rfl, rfl, ?_, hsame, rfl, rfl, rfl, rfl⟩
          -- variables of one name are in one slot
          intro slot hslot other hother heq
          obtain ⟨v, hv, hv'⟩ := hsame slot hslot
          obtain ⟨w, hw, hw'⟩ := hsame other hother
          rw [← heq, hv'] at hw'
          exact hmid.slot_eq_of_name_eq hv hw (congrArg Variable.name (Option.some.inj hw'))

end Catalog

end MapAlgebra
