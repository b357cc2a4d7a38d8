import MapAlgebra.Compiled
import MapAlgebra.Proofs.Result

/-!
# Reachable catalogs

A catalog comes about by registrations, declarations, look-ups of names and compilations
(`Catalog.LeadsTo`), starting from the one that knows the column and the row of a cell only
(`Catalog.Reachable`). This module says once for each of these operations what it does when it
succeeds, and derives that a variable never leaves its slot (**`LeadsTo.extends`**) and that all
inputs of a reachable catalog have one extent (**`Reachable.oneExtent`**).
-/

namespace MapAlgebra.Catalog

variable {c c' : Catalog}

/-! ### What making variables leaves alone -/

@[simp] theorem inputs_advance (c : Catalog) : c.advance.inputs = c.inputs := rfl

@[simp] theorem inputs_addEntries (root : String) (aliases : List String) :
    ∀ (entries : List (String × Kind)) (c : Catalog),
      (c.addEntries root aliases entries).inputs = c.inputs
  | [], _ => rfl
  | _ :: rest, _ => inputs_addEntries root aliases rest _

@[simp] theorem roots_addEntries (root : String) (aliases : List String) :
    ∀ (entries : List (String × Kind)) (c : Catalog),
      (c.addEntries root aliases entries).roots = c.roots
  | [], _ => rfl
  | _ :: rest, _ => roots_addEntries root aliases rest _

@[simp] theorem inputs_addWindow (c : Catalog) (name : String) (key : WindowKey) :
    (c.addWindow name key).2.inputs = c.inputs := by
  unfold addWindow
  cases c.windows.lookup key <;> rfl

/-! ### What each operation does -/

theorem declareConstant_eq_ok_iff {name : String} {x : Float} :
    c.declareConstant name x = .ok c' ↔
      c.checkAvailable name = .ok () ∧ (c.push name (.constant x)).2.advance = c' := by
  unfold declareConstant
  rw [bind_eq_ok_iff]
  constructor
  · rintro ⟨⟨⟩, hname, h⟩
    exact ⟨hname, Except.ok.inj h⟩
  · rintro ⟨hname, rfl⟩
    exact ⟨(), hname, rfl⟩

theorem declareMatrix_eq_ok_iff {name : String} {rows cols : Nat} {values : List Float} :
    c.declareMatrix name rows cols values = .ok c' ↔
      c.checkAvailable name = .ok () ∧ rows ≠ 0 ∧ cols ≠ 0 ∧
        ∃ h : values.length = rows * cols,
          (c.push name (.matrix ⟨rows, cols, values, h⟩)).2.advance = c' := by
  unfold declareMatrix
  rw [bind_eq_ok_iff]
  constructor
  · rintro ⟨⟨⟩, hname, h⟩
    refine ⟨hname, ?_⟩
    by_cases hempty : (rows = 0 || cols = 0) = true
    · rw [if_pos hempty] at h
      cases h
    · rw [if_neg hempty] at h
      simp only [Bool.or_eq_true, decide_eq_true_eq, not_or] at hempty
      refine ⟨hempty.1, hempty.2, ?_⟩
      unfold Matrix.ofCells? at h
      by_cases hlen : values.length = rows * cols
      · rw [dif_pos hlen] at h
        exact ⟨hlen, Except.ok.inj h⟩
      · rw [dif_neg hlen] at h
        cases h
  · rintro ⟨hname, hrows, hcols, hlen, rfl⟩
    refine ⟨(), hname, ?_⟩
    have hempty : ¬ (rows = 0 || cols = 0) = true := by simp [hrows, hcols]
    unfold Matrix.ofCells?
    rw [if_neg hempty, dif_pos hlen]
    rfl

theorem declareMatrixText_eq_ok_iff {name text : String} :
    c.declareMatrixText name text = .ok c' ↔
      ∃ m, MatrixText.parse text = .ok m ∧
        c.declareMatrix name m.rows m.cols m.values = .ok c' := by
  unfold declareMatrixText
  exact bind_eq_ok_iff

/-- A name that leads to a slot is there already, or it asks for a window of an input. -/
theorem resolve_eq_ok {name : String} {slot : Nat} (h : c.resolve name = .ok (slot, c')) :
    (c.names.lookup name = some slot ∧ c = c') ∨
      (c.names.lookup name = none ∧ ∃ n image band window, readWindow? name = some n ∧
        c.roots.lookup n.root = some image ∧ c.checkBand name image n.band = .ok band ∧
        Window.ofSides n.width n.height = .ok window ∧
        c.addWindow name ⟨image, band, window⟩ = (slot, c')) := by
  unfold resolve at h
  split at h
  · next slot' hname =>
    cases h
    exact Or.inl ⟨hname, rfl⟩
  · next hname =>
    refine Or.inr ⟨hname, ?_⟩
    cases hn : readWindow? name with
    | none =>
      simp only [resolveWindow?, hn, Option.bind_eq_bind, Option.bind_none, Option.getD_none] at h
      cases h
    | some n =>
      cases hroot : c.roots.lookup n.root with
      | none =>
        simp only [resolveWindow?, hn, hroot, Option.bind_eq_bind, Option.bind_some,
          Option.bind_none, Option.getD_none] at h
        cases h
      | some image =>
        simp only [resolveWindow?, hn, hroot, Option.bind_eq_bind, Option.bind_some] at h
        obtain ⟨band, hband, h⟩ := bind_eq_ok_iff.1 h
        cases hwindow : Window.ofSides n.width n.height with
        | error e => rw [hwindow] at h; cases h
        | ok window =>
          rw [hwindow] at h
          exact ⟨n, image, band, window, rfl, hroot, hband, hwindow, Except.ok.inj h⟩

/-- What a registration that succeeds has checked, and what it adds. -/
theorem register_eq_ok {source : Source} {alias? : Option String} {image : Nat}
    (h : c.register source alias? = .ok (image, c')) :
    ∃ aliases, c.checkInput source.raster = .ok () ∧ image = c.inputs.length ∧
      c.checkAlias (positionalRoot image) alias? = .ok aliases ∧
      (positionalRoot image :: aliases).findSome?
        (c.collision? (endings image source.raster.bands)) = none ∧
      c' = advance { c.addEntries (positionalRoot image) aliases
          (endings image source.raster.bands) with
        roots := (positionalRoot image :: aliases).map (·, image) ++ c.roots
        inputs := c.inputs ++ [source] } := by
  unfold register at h
  obtain ⟨⟨⟩, hinput, h⟩ := bind_eq_ok_iff.1 h
  obtain ⟨aliases, halias, h⟩ := bind_eq_ok_iff.1 h
  dsimp only at h
  split at h
  · cases h
  · next hfree =>
    cases h
    refine ⟨aliases, hinput, rfl, halias, hfree, ?_⟩
    rw [roots_addEntries, inputs_addEntries]

/-- A compilation leaves the catalog or resolves the names of its formula. -/
theorem compile_snd (c : Catalog) (text : String) (t : PixelType) :
    (c.compile text t).2 = c ∨ ∃ names, (c.compile text t).2 = (c.resolveAll names).2 := by
  unfold compile
  split
  · exact Or.inl rfl
  · next f _ =>
    refine Or.inr ⟨f.identifiers, ?_⟩
    split
    · next h => rw [h]
    · next h =>
      rw [h]
      split <;> rfl

/-! ### Reachability -/

/-- The catalogs that registrations, declarations, look-ups and compilations lead to from `start`.
An operation that is refused leaves the catalog, but for windows that a compilation has asked
for. -/
inductive LeadsTo (start : Catalog) : Catalog → Prop where
  /-- Nothing has been done. -/
  | refl : LeadsTo start start
  /-- An input has been registered. -/
  | register {c c' : Catalog} {source : Source} {alias? : Option String} {image : Nat} :
      LeadsTo start c → c.register source alias? = .ok (image, c') → LeadsTo start c'
  /-- A number has been declared. -/
  | declareConstant {c c' : Catalog} {name : String} {x : Float} :
      LeadsTo start c → c.declareConstant name x = .ok c' → LeadsTo start c'
  /-- A matrix has been declared. -/
  | declareMatrix {c c' : Catalog} {name : String} {rows cols : Nat} {values : List Float} :
      LeadsTo start c → c.declareMatrix name rows cols values = .ok c' → LeadsTo start c'
  /-- A matrix has been declared as a text. -/
  | declareMatrixText {c c' : Catalog} {name text : String} :
      LeadsTo start c → c.declareMatrixText name text = .ok c' → LeadsTo start c'
  /-- A name has been looked up. -/
  | resolve {c c' : Catalog} {name : String} {slot : Nat} :
      LeadsTo start c → c.resolve name = .ok (slot, c') → LeadsTo start c'
  /-- A formula has been compiled or refused. -/
  | compile {c : Catalog} (text : String) (t : PixelType) :
      LeadsTo start c → LeadsTo start (c.compile text t).2

theorem LeadsTo.trans {c c' c'' : Catalog} (h : c.LeadsTo c') (h' : c'.LeadsTo c'') :
    c.LeadsTo c'' := by
  induction h' with
  | refl => exact h
  | register _ hstep ih => exact ih.register hstep
  | declareConstant _ hstep ih => exact ih.declareConstant hstep
  | declareMatrix _ hstep ih => exact ih.declareMatrix hstep
  | declareMatrixText _ hstep ih => exact ih.declareMatrixText hstep
  | resolve _ hstep ih => exact ih.resolve hstep
  | compile text t _ ih => exact ih.compile text t

/-- The catalogs that come about from the one to begin with. -/
def Reachable (c : Catalog) : Prop := initial.LeadsTo c

/-! ### Slots -/

/-- Every variable of a catalog is in the same slot of another one. -/
def Extends (c c' : Catalog) : Prop :=
  ∀ (slot : Nat) (v : Variable), c.slots[slot]? = some v → c'.slots[slot]? = some v

theorem Extends.refl (c : Catalog) : c.Extends c := fun _ _ h => h

theorem Extends.trans {c'' : Catalog} (h : c.Extends c') (h' : c'.Extends c'') : c.Extends c'' :=
  fun slot v hv => h' slot v (h slot v hv)

theorem extends_push (c : Catalog) (name : String) (kind : Kind) :
    c.Extends (c.push name kind).2 := by
  intro slot v h
  have hlt := (Array.getElem?_eq_some_iff.1 h).1
  show (c.slots.push ⟨name, kind⟩)[slot]? = some v
  rw [Array.getElem?_push, if_neg (by omega), h]

theorem extends_addEntries (root : String) (aliases : List String) :
    ∀ (entries : List (String × Kind)) (c : Catalog),
      c.Extends (c.addEntries root aliases entries)
  | [], c => Extends.refl c
  | (ending, kind) :: rest, c => by
    refine Extends.trans ?_ (extends_addEntries root aliases rest _)
    exact extends_push c (root ++ ending) kind

theorem extends_addWindow (c : Catalog) (name : String) (key : WindowKey) :
    c.Extends (c.addWindow name key).2 := by
  unfold addWindow
  cases c.windows.lookup key with
  | some slot => exact Extends.refl c
  | none => exact extends_push c (windowName key) (.window key)

theorem extends_of_resolve {name : String} {slot : Nat} (h : c.resolve name = .ok (slot, c')) :
    c.Extends c' := by
  rcases resolve_eq_ok h with ⟨-, rfl⟩ | ⟨-, n, image, band, window, -, -, -, -, h⟩
  · exact Extends.refl c
  · have := extends_addWindow c name ⟨image, band, window⟩
    rwa [h] at this

theorem extends_resolveAll : ∀ (names : List String) (c : Catalog),
    c.Extends (c.resolveAll names).2
  | [], c => Extends.refl c
  | name :: rest, c => by
    unfold resolveAll
    split
    · next slot c' h => exact (extends_of_resolve h).trans (extends_resolveAll rest c')
    · exact extends_resolveAll rest c
    · exact Extends.refl c

/-- **Slots**: a variable never leaves its slot. -/
theorem LeadsTo.extends {start : Catalog} (h : start.LeadsTo c) : start.Extends c := by
  induction h with
  | refl => exact Extends.refl start
  | register _ h ih =>
    obtain ⟨aliases, -, -, -, -, rfl⟩ := register_eq_ok h
    exact ih.trans (extends_addEntries _ aliases _ _)
  | declareConstant _ h ih =>
    obtain ⟨-, rfl⟩ := declareConstant_eq_ok_iff.1 h
    exact ih.trans (extends_push _ _ _)
  | declareMatrix _ h ih =>
    obtain ⟨-, -, -, -, rfl⟩ := declareMatrix_eq_ok_iff.1 h
    exact ih.trans (extends_push _ _ _)
  | declareMatrixText _ h ih =>
    obtain ⟨m, -, h⟩ := declareMatrixText_eq_ok_iff.1 h
    obtain ⟨-, -, -, -, rfl⟩ := declareMatrix_eq_ok_iff.1 h
    exact ih.trans (extends_push _ _ _)
  | resolve _ h ih => exact ih.trans (extends_of_resolve h)
  | @compile c text t _ ih =>
    rcases compile_snd c text t with h | ⟨names, h⟩
    · rwa [h]
    · rw [h]
      exact ih.trans (extends_resolveAll names c)

/-! ### Inputs -/

theorem inputs_of_resolve {name : String} {slot : Nat} (h : c.resolve name = .ok (slot, c')) :
    c'.inputs = c.inputs := by
  rcases resolve_eq_ok h with ⟨-, rfl⟩ | ⟨-, n, image, band, window, -, -, -, -, h⟩
  · rfl
  · have := inputs_addWindow c name ⟨image, band, window⟩
    rwa [h] at this

theorem inputs_resolveAll : ∀ (names : List String) (c : Catalog),
    (c.resolveAll names).2.inputs = c.inputs
  | [], _ => rfl
  | name :: rest, c => by
    unfold resolveAll
    split
    · next slot c' h => rw [← inputs_of_resolve h, ← inputs_resolveAll rest c']
    · exact inputs_resolveAll rest c
    · rfl

/-- A compilation keeps the inputs, whether it succeeds or not. -/
theorem inputs_compile (c : Catalog) (text : String) (t : PixelType) :
    (c.compile text t).2.inputs = c.inputs := by
  rcases compile_snd c text t with h | ⟨names, h⟩
  · rw [h]
  · rw [h, inputs_resolveAll]

/-- All inputs of a catalog have one extent. -/
def OneExtent (c : Catalog) : Prop :=
  ∀ s ∈ c.inputs, ∀ s' ∈ c.inputs,
    s.raster.rows = s'.raster.rows ∧ s.raster.cols = s'.raster.cols

/-- An input that is let in has the extent of every input before it. -/
theorem OneExtent.extent_of_checkInput (hc : c.OneExtent) {r : Raster} (h : c.checkInput r = .ok ())
    {s : Source} (hs : s ∈ c.inputs) : s.raster.rows = r.rows ∧ s.raster.cols = r.cols := by
  unfold checkInput at h
  split at h
  · cases h
  · split at h
    · next hnil => rw [hnil] at hs; cases hs
    · next first rest hcons =>
      dsimp only at h
      split at h
      · next hsize =>
        have hfirst : first ∈ c.inputs := hcons ▸ List.mem_cons_self
        obtain ⟨hrows, hcols⟩ := hc s hs first hfirst
        exact ⟨hrows.trans hsize.1, hcols.trans hsize.2⟩
      · cases h

theorem OneExtent.register {source : Source} {alias? : Option String} {image : Nat}
    (hc : c.OneExtent) (h : c.register source alias? = .ok (image, c')) : c'.OneExtent := by
  obtain ⟨aliases, hinput, -, -, -, rfl⟩ := register_eq_ok h
  intro s hs s' hs'
  simp only [inputs_advance, List.mem_append, List.mem_singleton] at hs hs'
  rcases hs with hs | rfl
  · rcases hs' with hs' | rfl
    · exact hc s hs s' hs'
    · exact hc.extent_of_checkInput hinput hs
  · rcases hs' with hs' | rfl
    · obtain ⟨hrows, hcols⟩ := hc.extent_of_checkInput hinput hs'
      exact ⟨hrows.symm, hcols.symm⟩
    · exact ⟨rfl, rfl⟩

/-- **Extents**: all inputs of a reachable catalog have one extent. -/
theorem Reachable.oneExtent (hc : c.Reachable) : c.OneExtent := by
  induction hc with
  | refl => intro s hs; cases hs
  | register _ h ih => exact ih.register h
  | declareConstant _ h ih =>
    obtain ⟨-, rfl⟩ := declareConstant_eq_ok_iff.1 h
    exact ih
  | declareMatrix _ h ih =>
    obtain ⟨-, -, -, -, rfl⟩ := declareMatrix_eq_ok_iff.1 h
    exact ih
  | declareMatrixText _ h ih =>
    obtain ⟨m, -, h⟩ := declareMatrixText_eq_ok_iff.1 h
    obtain ⟨-, -, -, -, rfl⟩ := declareMatrix_eq_ok_iff.1 h
    exact ih
  | resolve _ h ih =>
    unfold OneExtent
    rw [inputs_of_resolve h]
    exact ih
  | compile text t _ ih =>
    unfold OneExtent
    rw [inputs_compile]
    exact ih

end MapAlgebra.Catalog
