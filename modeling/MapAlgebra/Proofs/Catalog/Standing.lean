import MapAlgebra.Proofs.Catalog.Asked
import Mathlib.Data.List.Pairwise

/-!
# What names stand for

Every name of a catalog is accounted for: it is that of the column or the row of a cell, it has been
declared, it is a root of an input and an ending, or it asks for a window (`Catalog.Stands`). The
other way round, every ending of an input is in use under each of its roots, and leads to one
variable there. Both hold of every reachable catalog (**`Reachable.accounted`**), so what a name
stands for can be told from the name, the roots, and whether somebody has declared it.
-/

namespace MapAlgebra.Catalog

variable {c c' : Catalog}

/-! ### The invariant -/

/-- Why a name leads to a variable. -/
inductive Stands (c : Catalog) : String → Variable → Prop where
  /-- The column of a cell. -/
  | column : Stands c "idxX" ⟨"idxX", .indexX⟩
  /-- The row of a cell. -/
  | row : Stands c "idxY" ⟨"idxY", .indexY⟩
  /-- A number or a matrix has been declared under the name, which is not like a positional one. -/
  | declared {name : String} {kind : Kind} : isPositionalName name = false →
      kind.listedAs? = none → Stands c name ⟨name, kind⟩
  /-- The name is a root of an input and the ending of one of its variables. -/
  | mirrored {root : String} {image : Nat} {s : Source} {e : String × Kind} :
      c.roots.lookup root = some image → c.inputs[image]? = some s →
      e ∈ endings image s.raster.bands →
      Stands c (root ++ e.1) ⟨positionalRoot image ++ e.1, e.2⟩
  /-- The name asks for a window. -/
  | window {name : String} {key : WindowKey} : c.asked name = .ok key →
      Stands c name ⟨windowName key, .window key⟩

/-- What a name stands for does not change when the catalog grows. -/
theorem Stands.grows {name : String} {v : Variable} (h : c.Stands name v) (hgrows : c.Grows c') :
    c'.Stands name v := by
  cases h with
  | column => exact .column
  | row => exact .row
  | declared hplain hkind => exact .declared hplain hkind
  | mirrored hroot hs he =>
    exact .mirrored (hgrows.roots hroot) (getElem?_of_isPrefix hgrows.inputs hs) he
  | window hasked => exact .window (hgrows.asked hasked)

/-- All names are accounted for. -/
structure Accounted (c : Catalog) : Prop where
  /-- A name stands for the variable it leads to. -/
  stands : ∀ entry ∈ c.names, ∃ v, c.slots[entry.2]? = some v ∧ c.Stands entry.1 v
  /-- A root is the positional one of its input, or a name that is not like a positional one. -/
  plain : ∀ entry ∈ c.roots, entry.1 = positionalRoot entry.2 ∨
    Text.isName entry.1 = true ∧ isPositionalName entry.1 = false
  /-- The variables of an input are in use under all of its roots. -/
  mirrors : ∀ {root : String} {image : Nat} {s : Source} {e : String × Kind},
    c.roots.lookup root = some image → c.inputs[image]? = some s →
    e ∈ endings image s.raster.bands → ∃ slot, c.names.lookup (root ++ e.1) = some slot ∧
      c.slots[slot]? = some ⟨positionalRoot image ++ e.1, e.2⟩

/-- A name that leads to a slot stands for the variable there. -/
theorem Accounted.stands_of_lookup (h : c.Accounted) {name : String} {slot : Nat}
    (hname : c.names.lookup name = some slot) :
    ∃ v, c.slots[slot]? = some v ∧ c.Stands name v :=
  h.stands _ (mem_of_lookup hname)

/-- Operations that bring in names but no inputs keep names accounted for, if they account for those
they bring in. -/
theorem Accounted.extend (h : c.Accounted) (hgrows : c.Grows c') (hroots : c'.roots = c.roots)
    (hinputs : c'.inputs = c.inputs) (hnew : ∀ entry ∈ c'.names, entry ∈ c.names ∨
      ∃ v, c'.slots[entry.2]? = some v ∧ c'.Stands entry.1 v) : c'.Accounted where
  stands entry hentry := by
    rcases hnew entry hentry with hold | hnew
    · obtain ⟨v, hv, hstands⟩ := h.stands entry hold
      exact ⟨v, hgrows.slots _ v hv, hstands.grows hgrows⟩
    · exact hnew
  plain := by
    rw [hroots]
    exact h.plain
  mirrors := by
    rw [hroots, hinputs]
    intro root image s e hroot hs he
    obtain ⟨slot, hname, hslot⟩ := h.mirrors hroot hs he
    exact ⟨slot, hgrows.names hname, hgrows.slots _ _ hslot⟩

/-! ### Declarations and windows -/

theorem Accounted.declare (h : c.Accounted) (hc : c.WellFormed) {name : String}
    (hname : c.checkAvailable name = .ok ()) {kind : Kind} (hdeclared : kind.listedAs? = none)
    (hrange : kind.InRange c.inputs) : (c.push name kind).2.advance.Accounted := by
  obtain ⟨-, -, hplain⟩ := checkAvailable_eq_ok hname
  refine h.extend (hc.declare hname kind hdeclared hrange).2 rfl rfl fun entry hentry => ?_
  rcases List.mem_cons.1 hentry with rfl | hold
  · exact Or.inr ⟨_, getElem?_push.2 (Or.inr ⟨rfl, rfl⟩), .declared hplain hdeclared⟩
  · exact Or.inl hold

theorem Accounted.resolve (h : c.Accounted) (hc : c.WellFormed) {name : String} {slot : Nat}
    (hresolve : c.resolve name = .ok (slot, c')) : c'.Accounted := by
  have hgrows := (hc.resolve hresolve).2.1
  cases hname : c.names.lookup name with
  | some slot' =>
    rw [resolve_of_lookup hname] at hresolve
    cases hresolve
    exact h
  | none =>
    obtain ⟨key, hasked, hadd⟩ := addWindow_of_resolve hname hresolve
    obtain rfl : (c.addWindow name key).2 = c' := congrArg Prod.snd hadd
    have hroots : (c.addWindow name key).2.roots = c.roots := roots_addWindow c name key
    have hinputs : (c.addWindow name key).2.inputs = c.inputs := inputs_addWindow c name key
    refine h.extend hgrows hroots hinputs fun entry hentry => ?_
    rcases mem_names_addWindow hentry with hold | ⟨hasks, hslot⟩
    · exact Or.inl hold
    · refine Or.inr ⟨_, hslot ▸ hc.getElem?_addWindow name key, .window ?_⟩
      rw [asked_congr hinputs hroots]
      rcases hasks with hentry | hentry
      · rw [hentry, hasked]
      · rw [hentry, hc.asked_windowName hasked]

theorem Accounted.resolveAll (h : c.Accounted) (hc : c.WellFormed) (names : List String) :
    (c.resolveAll names).2.Accounted := by
  induction names generalizing c with
  | nil => exact h
  | cons name rest ih =>
    unfold Catalog.resolveAll
    split
    · next slot mid hresolve => exact ih (h.resolve hc hresolve) (hc.resolve hresolve).1
    · exact ih h hc
    · exact h

/-! ### Inputs -/

section Entries

variable {root : String} {aliases : List String}

/-- The names that an input brings in are a root and an ending, and lead to the variable of the
ending. -/
theorem mem_names_addEntries {entries : List (String × Kind)} {entry : String × Nat}
    (h : entry ∈ (c.addEntries root aliases entries).names) : entry ∈ c.names ∨
      ∃ r ∈ root :: aliases, ∃ e ∈ entries, entry.1 = r ++ e.1 ∧
        (c.addEntries root aliases entries).slots[entry.2]? = some ⟨root ++ e.1, e.2⟩ := by
  induction entries generalizing c with
  | nil => exact Or.inl h
  | cons first rest ih =>
    -- the variable of the first ending stays in its slot while the others are added
    have hfirst := extends_addEntries root aliases rest { (c.push (root ++ first.1) first.2).2 with
      names := aliases.map (fun a => (a ++ first.1, c.slots.size)) ++
        (c.push (root ++ first.1) first.2).2.names } c.slots.size ⟨root ++ first.1, first.2⟩
      (getElem?_push.2 (Or.inr ⟨rfl, rfl⟩))
    rcases ih h with hmem | ⟨r, hr, e, he, heq, hslot⟩
    · rcases List.mem_append.1 hmem with hmem | hmem
      · obtain ⟨a, ha, rfl⟩ := List.mem_map.1 hmem
        exact Or.inr ⟨a, List.mem_cons_of_mem _ ha, first, List.mem_cons_self, rfl, hfirst⟩
      · rcases List.mem_cons.1 hmem with rfl | hold
        · exact Or.inr ⟨root, List.mem_cons_self, first, List.mem_cons_self, rfl, hfirst⟩
        · exact Or.inl hold
    · exact Or.inr ⟨r, hr, e, List.mem_cons_of_mem _ he, heq, hslot⟩

theorem names_subset_addEntries (root : String) (aliases : List String) :
    ∀ (entries : List (String × Kind)) (c : Catalog),
      c.names ⊆ (c.addEntries root aliases entries).names
  | [], _ => List.Subset.refl _
  | (ending, _) :: rest, c => fun _ h =>
    names_subset_addEntries root aliases rest _
      (List.mem_append_right _ (List.mem_cons_of_mem (root ++ ending, c.slots.size) h))

/-- Every ending is in use under every root. -/
theorem exists_mem_names_addEntries {entries : List (String × Kind)} {r : String}
    (hr : r ∈ root :: aliases) {e : String × Kind} (he : e ∈ entries) :
    ∃ slot, (r ++ e.1, slot) ∈ (c.addEntries root aliases entries).names := by
  induction entries generalizing c with
  | nil => cases he
  | cons first rest ih =>
    rcases List.mem_cons.1 he with rfl | he
    · refine ⟨c.slots.size, names_subset_addEntries root aliases rest _ (List.mem_append.2 ?_)⟩
      rcases List.mem_cons.1 hr with rfl | ha
      · exact Or.inr List.mem_cons_self
      · exact Or.inl (List.mem_map.2 ⟨r, ha, rfl⟩)
    · exact ih he

/-- An ending leads to its variable under every root, if the endings may be added. -/
theorem Free.lookup_addEntries {entries : List (String × Kind)}
    (hfree : c.Free root aliases entries) {r : String} (hr : r ∈ root :: aliases)
    {e : String × Kind} (he : e ∈ entries) :
    ∃ slot, (c.addEntries root aliases entries).names.lookup (r ++ e.1) = some slot ∧
      (c.addEntries root aliases entries).slots[slot]? = some ⟨root ++ e.1, e.2⟩ := by
  obtain ⟨_, hmem⟩ := exists_mem_names_addEntries (c := c) hr he
  cases hname : (c.addEntries root aliases entries).names.lookup (r ++ e.1) with
  | none => exact absurd rfl (lookup_eq_none_iff_ne.1 hname _ hmem)
  | some slot =>
    refine ⟨slot, rfl, ?_⟩
    rcases mem_names_addEntries (mem_of_lookup hname) with hold | ⟨r', hr', e', he', heq, hslot⟩
    · exact absurd rfl (lookup_eq_none_iff_ne.1 (hfree.free r hr e he) _ hold)
    · have hsame : e = e' := by
        by_contra hne
        have hsymm : Std.Symm fun e e' : String × Kind =>
            ∀ r ∈ root :: aliases, ∀ r' ∈ root :: aliases, r' ++ e'.1 ≠ r ++ e.1 :=
          ⟨fun _ _ h r hr r' hr' heq => h r' hr' r hr heq.symm⟩
        exact (hfree.apart.forall he he' hne) r hr r' hr' heq.symm
      rw [hsame, hslot]

end Entries

/-! ### Roots of inputs -/

/-- The roots of a new input lead to it. -/
theorem lookup_root_enrol (c : Catalog) (source : Source) {aliases : List String} {r : String}
    (hr : r ∈ positionalRoot c.inputs.length :: aliases) :
    (c.enrol source aliases).roots.lookup r = some c.inputs.length := by
  have hall : ∀ p ∈ (positionalRoot c.inputs.length :: aliases).map (·, c.inputs.length),
      p.2 = c.inputs.length := by
    intro p hp
    obtain ⟨_, -, rfl⟩ := List.mem_map.1 hp
    rfl
  show (List.map (·, c.inputs.length) _ ++ c.roots).lookup r = _
  rw [List.lookup_append]
  cases hnew : ((positionalRoot c.inputs.length :: aliases).map (·, c.inputs.length)).lookup r with
  | none => exact absurd rfl (lookup_eq_none_iff_ne.1 hnew _ (List.mem_map.2 ⟨r, hr, rfl⟩))
  | some image => rw [Option.some_or, ← hall _ (mem_of_lookup hnew)]

/-- Other roots lead where they led. -/
theorem lookup_enrol_of_not_mem (c : Catalog) (source : Source) {aliases : List String}
    {r : String} (hr : r ∉ positionalRoot c.inputs.length :: aliases) :
    (c.enrol source aliases).roots.lookup r = c.roots.lookup r := by
  show (List.map (·, c.inputs.length) _ ++ c.roots).lookup r = _
  rw [List.lookup_append, lookup_eq_none_iff_ne.2, Option.none_or]
  rintro p hp rfl
  obtain ⟨r', hr', heq⟩ := List.mem_map.1 hp
  exact hr (heq ▸ hr')

theorem Accounted.register (h : c.Accounted) (hc : c.WellFormed) {source : Source}
    {alias? : Option String} {image : Nat}
    (hregister : c.register source alias? = .ok (image, c')) : c'.Accounted := by
  have hgrows := (hc.register hregister).2
  obtain ⟨aliases, haliases, hlength, hfree, rfl⟩ := register_eq_addEntries hregister
  have hentries := WellFormed.free_of_register c source haliases hlength fun r hr => (hfree r hr).2
  have hroots : ((c.enrol source aliases).addEntries (positionalRoot c.inputs.length) aliases
      (endings c.inputs.length source.raster.bands)).roots = (c.enrol source aliases).roots :=
    roots_addEntries ..
  have hinputs : ((c.enrol source aliases).addEntries (positionalRoot c.inputs.length) aliases
      (endings c.inputs.length source.raster.bands)).inputs = c.inputs ++ [source] :=
    inputs_addEntries ..
  exact {
    stands := by
      intro entry hentry
      rcases mem_names_addEntries hentry with hold | ⟨r, hr, e, he, heq, hslot⟩
      · obtain ⟨v, hv, hstands⟩ := h.stands entry hold
        exact ⟨v, hgrows.slots _ v hv, hstands.grows hgrows⟩
      · rw [heq]
        refine ⟨_, hslot, .mirrored ?_ ?_ he⟩
        · exact (congrArg (List.lookup r) hroots).trans (lookup_root_enrol c source hr)
        · exact (congrArg (·[c.inputs.length]?) hinputs).trans List.getElem?_concat_length
    plain := by
      intro entry hentry
      rcases List.mem_append.1 (hroots ▸ hentry) with hnew | hold
      · obtain ⟨r, hr, rfl⟩ := List.mem_map.1 hnew
        rcases List.mem_cons.1 hr with rfl | ha
        · exact Or.inl rfl
        · exact Or.inr (haliases r ha)
      · exact h.plain entry hold
    mirrors := by
      intro r image' s e hr hs he
      rw [inputs_advance, hinputs] at hs
      by_cases hnew : r ∈ positionalRoot c.inputs.length :: aliases
      · obtain rfl : c.inputs.length = image' := Option.some.inj
          ((lookup_root_enrol c source hnew).symm.trans
            ((congrArg (List.lookup r) hroots).symm.trans hr))
        rw [List.getElem?_concat_length] at hs
        cases hs
        exact hentries.lookup_addEntries hnew he
      · -- an older root leads to an older input
        have hold : c.roots.lookup r = some image' :=
          (lookup_enrol_of_not_mem c source hnew).symm.trans
            ((congrArg (List.lookup r) hroots).symm.trans hr)
        have hlt : image' < c.inputs.length := hc.image_lt _ (mem_of_lookup hold)
        rw [List.getElem?_append_left hlt] at hs
        obtain ⟨slot, hname, hslot⟩ := h.mirrors hold hs he
        exact ⟨slot, hgrows.names hname, hgrows.slots _ _ hslot⟩ }

/-! ### Reachable catalogs -/

theorem accounted_initial : initial.Accounted where
  stands entry hentry := by
    rcases List.mem_cons.1 hentry with rfl | hentry
    · exact ⟨_, rfl, .row⟩
    · obtain rfl := List.mem_singleton.1 hentry
      exact ⟨_, rfl, .column⟩
  plain := List.forall_mem_nil _
  mirrors hroot := nomatch hroot

/-- **Names**: in a reachable catalog all names are accounted for. -/
theorem Reachable.accounted (hc : c.Reachable) : c.Accounted := by
  induction hc with
  | refl => exact accounted_initial
  | register hbefore hregister ih => exact ih.register (Reachable.wellFormed hbefore) hregister
  | declareConstant hbefore hdeclare ih =>
    obtain ⟨hname, rfl⟩ := declareConstant_eq_ok_iff.1 hdeclare
    exact ih.declare (Reachable.wellFormed hbefore) hname rfl trivial
  | declareMatrix hbefore hdeclare ih =>
    obtain ⟨hname, -, -, -, rfl⟩ := declareMatrix_eq_ok_iff.1 hdeclare
    exact ih.declare (Reachable.wellFormed hbefore) hname rfl trivial
  | declareMatrixText hbefore hdeclare ih =>
    obtain ⟨m, -, hdeclare⟩ := declareMatrixText_eq_ok_iff.1 hdeclare
    obtain ⟨hname, -, -, -, rfl⟩ := declareMatrix_eq_ok_iff.1 hdeclare
    exact ih.declare (Reachable.wellFormed hbefore) hname rfl trivial
  | resolve hbefore hresolve ih => exact ih.resolve (Reachable.wellFormed hbefore) hresolve
  | @compile c text t hbefore ih =>
    rcases compile_snd c text t with hsame | ⟨names, hresolved⟩
    · rwa [hsame]
    · rw [hresolved]
      exact ih.resolveAll (Reachable.wellFormed hbefore) names

end MapAlgebra.Catalog
