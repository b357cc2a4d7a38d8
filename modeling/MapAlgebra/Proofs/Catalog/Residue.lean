import MapAlgebra.Proofs.Catalog.InPlace

/-!
# What a refused compilation leaves behind

Looking up the names of a formula makes windows on the way, and these stay when a later name or the
formula is refused. `Catalog.AddsWindows` says everything that is left: new slots behind the old
ones, each for a window that was not there and that one of the names asks for, and new names that
were free and lead to such windows. Main statement: **`WellFormed.addsWindows_compile`**.
-/

namespace MapAlgebra.Catalog

open MapAlgebra.Expr

variable {c c' : Catalog} {asking : List String}

/-- The variable of a window. -/
def windowVariable (key : WindowKey) : Variable := ⟨windowName key, .window key⟩

/-- A catalog has gained windows that some of the names `asking` ask for, names of such windows, and
nothing else. -/
structure AddsWindows (asking : List String) (c c' : Catalog) : Prop where
  /-- The inputs are the same. -/
  inputs : c'.inputs = c.inputs
  /-- The roots are the same. -/
  roots : c'.roots = c.roots
  /-- No generation has begun. -/
  generation : c'.generation = c.generation
  /-- The new slots come after the others and hold windows that were not there. -/
  slots : ∃ keys : List WindowKey, c'.slots.toList = c.slots.toList ++ keys.map windowVariable ∧
    c'.windows = (keys.zipIdx c.slots.size).reverse ++ c.windows ∧
    ∀ key ∈ keys, c.windows.lookup key = none ∧ ∃ name ∈ asking, c.asked name = .ok key
  /-- The new names were free, and each leads to a window, which it asks for or is listed under. -/
  names : ∃ added : List (String × Nat), c'.names = added ++ c.names ∧
    ∀ entry ∈ added, c.names.lookup entry.1 = none ∧
      ∃ name ∈ asking, ∃ key, c.asked name = .ok key ∧
        (entry.1 = name ∨ entry.1 = windowName key) ∧
        c'.slots[entry.2]? = some (windowVariable key)

namespace AddsWindows

theorem refl (asking : List String) (c : Catalog) : c.AddsWindows asking c where
  inputs := rfl
  roots := rfl
  generation := rfl
  slots := ⟨[], (List.append_nil _).symm, rfl, List.forall_mem_nil _⟩
  names := ⟨[], rfl, List.forall_mem_nil _⟩

/-- More names may ask. -/
theorem mono (h : c.AddsWindows asking c') {asking' : List String} (hsubset : asking ⊆ asking') :
    c.AddsWindows asking' c' where
  inputs := h.inputs
  roots := h.roots
  generation := h.generation
  slots := by
    obtain ⟨keys, hslots, hwindows, hkeys⟩ := h.slots
    refine ⟨keys, hslots, hwindows, fun key hkey => ?_⟩
    obtain ⟨hnew, name, hname, hasked⟩ := hkeys key hkey
    exact ⟨hnew, name, hsubset hname, hasked⟩
  names := by
    obtain ⟨added, hnames, hadded⟩ := h.names
    refine ⟨added, hnames, fun entry hentry => ?_⟩
    obtain ⟨hfree, name, hname, hleads⟩ := hadded entry hentry
    exact ⟨hfree, name, hsubset hname, hleads⟩

/-- Nothing that was known before has changed. -/
theorem grows (h : c.AddsWindows asking c') : c.Grows c' where
  slots := by
    obtain ⟨keys, hslots, -, -⟩ := h.slots
    intro slot v hv
    rw [← Array.getElem?_toList] at hv ⊢
    exact getElem?_of_isPrefix (hslots ▸ List.prefix_append _ _) hv
  names := by
    obtain ⟨added, hnames, hadded⟩ := h.names
    intro name slot hname
    have hnone : added.lookup name = none := by
      rw [lookup_eq_none_iff_ne]
      rintro entry hentry rfl
      rw [(hadded entry hentry).1] at hname
      cases hname
    rw [hnames, List.lookup_append, hnone, Option.none_or, hname]
  roots hroot := h.roots.symm ▸ hroot
  inputs := h.inputs ▸ List.prefix_refl _

theorem trans {c'' : Catalog} (h : c.AddsWindows asking c') (h' : c'.AddsWindows asking c'') :
    c.AddsWindows asking c'' where
  inputs := h'.inputs.trans h.inputs
  roots := h'.roots.trans h.roots
  generation := h'.generation.trans h.generation
  slots := by
    obtain ⟨keys, hslots, hwindows, hkeys⟩ := h.slots
    obtain ⟨keys', hslots', hwindows', hkeys'⟩ := h'.slots
    have hsize : c'.slots.size = c.slots.size + keys.length := by
      rw [← Array.length_toList, hslots, List.length_append, List.length_map, Array.length_toList]
    refine ⟨keys ++ keys', ?_, ?_, List.forall_mem_append.2 ⟨hkeys, fun key hkey => ?_⟩⟩
    · rw [hslots', hslots, List.map_append, List.append_assoc]
    · rw [hwindows', hwindows, hsize, List.zipIdx_append, List.reverse_append, List.append_assoc]
    · obtain ⟨hnew, name, hname, hasked⟩ := hkeys' key hkey
      rw [hwindows, List.lookup_append, Option.or_eq_none_iff] at hnew
      rw [asked_congr h.inputs h.roots] at hasked
      exact ⟨hnew.2, name, hname, hasked⟩
  names := by
    obtain ⟨added, hnames, hadded⟩ := h.names
    obtain ⟨added', hnames', hadded'⟩ := h'.names
    refine ⟨added' ++ added, by rw [hnames', hnames, List.append_assoc],
      List.forall_mem_append.2 ⟨fun entry hentry => ?_, fun entry hentry => ?_⟩⟩
    · obtain ⟨hfree, name, hname, key, hasked, hleads⟩ := hadded' entry hentry
      rw [asked_congr h.inputs h.roots] at hasked
      refine ⟨?_, name, hname, key, hasked, hleads⟩
      rw [hnames, List.lookup_append, Option.or_eq_none_iff] at hfree
      exact hfree.2
    · obtain ⟨hfree, name, hname, key, hasked, heq, hslot⟩ := hadded entry hentry
      exact ⟨hfree, name, hname, key, hasked, heq, h'.grows.slots _ _ hslot⟩

end AddsWindows

/-! ### Looking up names -/

theorem addWindow_of_made {key : WindowKey} {slot : Nat} (hkey : c.windows.lookup key = some slot)
    (name : String) :
    c.addWindow name key = (slot, { c with names := (name, slot) :: c.names }) := by
  unfold addWindow
  rw [hkey]

theorem addWindow_of_new {key : WindowKey} (hkey : c.windows.lookup key = none) (name : String) :
    c.addWindow name key = (c.slots.size, { c with
      slots := c.slots.push (windowVariable key)
      names := (name, c.slots.size) :: (windowName key, c.slots.size) :: c.names
      windows := (key, c.slots.size) :: c.windows }) := by
  unfold addWindow
  rw [hkey]
  rfl

/-- A step: the window that a name asks for is made, or it is there. -/
theorem WellFormed.addsWindows_addWindow (hc : c.WellFormed) {name : String} {key : WindowKey}
    (hname : c.names.lookup name = none) (hasked : c.asked name = .ok key) :
    c.AddsWindows [name] (c.addWindow name key).2 := by
  have hmade := hc.getElem?_addWindow name key
  have hmember : name ∈ [name] := List.mem_cons_self
  cases hkey : c.windows.lookup key with
  | some slot =>
    rw [addWindow_of_made hkey] at hmade ⊢
    exact {
      inputs := rfl
      roots := rfl
      generation := rfl
      slots := ⟨[], (List.append_nil _).symm, rfl, List.forall_mem_nil _⟩
      names := ⟨[(name, slot)], rfl, List.forall_mem_singleton.2
        ⟨hname, name, hmember, key, hasked, Or.inl rfl, hmade⟩⟩ }
  | none =>
    have hlisted := hc.lookup_windowName_eq_none hkey
    rw [addWindow_of_new hkey] at hmade ⊢
    exact {
      inputs := rfl
      roots := rfl
      generation := rfl
      slots := ⟨[key], Array.toList_push, rfl,
        List.forall_mem_singleton.2 ⟨hkey, name, hmember, hasked⟩⟩
      names := ⟨[(name, c.slots.size), (windowName key, c.slots.size)], rfl,
        List.forall_mem_cons.2 ⟨⟨hname, name, hmember, key, hasked, Or.inl rfl, hmade⟩,
          List.forall_mem_singleton.2
            ⟨hlisted, name, hmember, key, hasked, Or.inr rfl, hmade⟩⟩⟩ }

theorem WellFormed.addsWindows_resolve (hc : c.WellFormed) {name : String} {slot : Nat}
    (hresolve : c.resolve name = .ok (slot, c')) : c.AddsWindows [name] c' := by
  cases hname : c.names.lookup name with
  | some slot' =>
    rw [resolve_of_lookup hname] at hresolve
    cases hresolve
    exact .refl _ c
  | none =>
    obtain ⟨key, hasked, hadd⟩ := addWindow_of_resolve hname hresolve
    obtain rfl : (c.addWindow name key).2 = c' := congrArg Prod.snd hadd
    exact hc.addsWindows_addWindow hname hasked

/-- A run: names looked up in order, whether one of them is refused or not. -/
theorem WellFormed.addsWindows_resolveAll (hc : c.WellFormed) (names : List String) :
    c.AddsWindows names (c.resolveAll names).2 := by
  induction names generalizing c with
  | nil => exact .refl _ c
  | cons name rest ih =>
    unfold Catalog.resolveAll
    split
    · next slot mid hresolve =>
      have hfirst : c.AddsWindows (name :: rest) mid :=
        (hc.addsWindows_resolve hresolve).mono (List.cons_subset_cons name (List.nil_subset rest))
      exact hfirst.trans ((ih (hc.resolve hresolve).1).mono (List.subset_cons_self name rest))
    · exact (ih hc).mono (List.subset_cons_self name rest)
    · exact .refl _ c

/-! ### Compiling -/

/-- The names of the formula that a text spells. -/
def namesIn (text : String) : List String :=
  match Formula.parse text with
  | .ok f => f.identifiers
  | .error _ => []

/-- **Residue**: a compilation, whether it is refused or not, adds windows that names of the formula
ask for, names of such windows, and nothing else. -/
theorem WellFormed.addsWindows_compile (hc : c.WellFormed) (text : String) (t : PixelType) :
    c.AddsWindows (namesIn text) (c.compile text t).2 := by
  unfold namesIn Catalog.compile
  cases Formula.parse text with
  | error e => exact .refl _ c
  | ok f =>
    have hresolved := hc.addsWindows_resolveAll f.identifiers
    dsimp only
    split
    · next heq => rwa [heq] at hresolved
    · next heq =>
      rw [heq] at hresolved
      split <;> exact hresolved

end MapAlgebra.Catalog
