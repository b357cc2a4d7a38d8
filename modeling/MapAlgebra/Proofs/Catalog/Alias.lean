import MapAlgebra.Proofs.Catalog.Positional

/-!
# Names under an alias

An alias of an input stands for its positional root. With the ending of a variable that is always
there it leads to the same slot, whatever has been declared or registered before or after. With the
ending of a window it does so unless the name has been given away: nothing keeps a number, a matrix
or a further input from being put under the name that a window would have under the alias
(`Catalog.Taken`), while the names of windows under positional roots cannot be taken. Main
statement: **`Catalog.Reachable.mirrored`**; **`resolve_captured`** is a name that has been taken.
-/

namespace MapAlgebra.Catalog

open Decimal

variable {c c' : Catalog} {image : Nat} {s : Source} {a suffix : String}

/-! ### Endings of windows -/

/-- What comes after the last separator has every ending without a separator. -/
theorem suffix_of_append_eq {sep : Char} {as bs cs ds : List Char}
    (h : as ++ bs = cs ++ sep :: ds) (hsep : sep ∉ bs) : bs <:+ ds := by
  rcases List.append_eq_append_iff.1 h with ⟨mid, -, hbs⟩ | ⟨mid, -, hds⟩
  · exact absurd (hbs ▸ List.mem_append_right mid List.mem_cons_self) hsep
  · cases mid with
    | nil =>
      rw [List.nil_append] at hds
      exact absurd (hds ▸ List.mem_cons_self) hsep
    | cons _ mid => exact ⟨mid, (List.cons.inj hds).2.symm⟩

section Spellings

variable {band width height : String} {j w h : Nat}

/-- A root and the ending of a variable are a name that asks for a window only if the ending is
empty. -/
theorem ending_eq_empty {bands : Nat} {root : String} {e : String × Kind}
    (he : e ∈ endings image bands) (hwidth : Spells width w) (hheight : Spells height h)
    (heq : a ++ windowSpelling band width height = root ++ e.1) : e.1 = "" := by
  obtain ⟨hhead, hletter⟩ := toList_of_mem_endings he
  have hlist := congrArg String.toList heq
  rw [toList_windowSpelling, String.toList_append] at hlist
  have hsuffix := suffix_of_append_eq hlist.symm hletter
  cases hchars : e.1.toList with
  | nil => exact String.toList_injective hchars
  | cons ch chars =>
    -- the ending would begin with a letter, but the sides of a window have only one, the separator
    exfalso
    rw [hchars] at hhead hsuffix
    have hmem := hsuffix.subset List.mem_cons_self
    rw [List.mem_append, List.mem_cons] at hmem
    have hch : isDigit ch = false ∧ ch ≠ 'x' := by
      rcases hhead ch rfl with rfl | rfl <;> decide
    rcases hmem with hmem | hmem | hmem
    · exact hwidth.not_mem hch.1 hmem
    · exact hch.2 hmem
    · exact hheight.not_mem hch.1 hmem

end Spellings

/-- What follows a positional root and does not go on with its number tells the input. -/
theorem root_append_inj {image' : Nat} {suffix' : String}
    (hdigit : ∀ ch ∈ suffix.toList.head?, isDigit ch = false)
    (hdigit' : ∀ ch ∈ suffix'.toList.head?, isDigit ch = false)
    (h : positionalRoot image ++ suffix = positionalRoot image' ++ suffix') :
    image = image' ∧ suffix = suffix' := by
  have hlist := congrArg String.toList h
  rw [String.toList_append, String.toList_append, toList_positionalRoot,
    toList_positionalRoot] at hlist
  obtain ⟨hnumber, hsuffix⟩ :=
    digits_append_inj hdigit hdigit' (List.cons.inj (List.cons.inj hlist).2).2
  exact ⟨Nat.succ.inj hnumber, String.toList_injective hsuffix⟩

/-- If a positional root and what follows it ask for a window, then what follows spells the window,
of the input of the root. -/
theorem Accounted.exists_spelling_of_asked (h : c.Accounted) {key : WindowKey}
    (hdigit : ∀ ch ∈ suffix.toList.head?, isDigit ch = false)
    (hasked : c.asked (positionalRoot image ++ suffix) = .ok key) :
    ∃ band width height, Spells band (key.band + 1) ∧ Spells width key.window.width ∧
      Spells height key.window.height ∧ suffix = windowSpelling band width height := by
  obtain ⟨n, hn, hroot, hband, hwindow⟩ := asked_eq_ok_iff.1 hasked
  obtain ⟨band, width, height, hsb, hsw, hsh, hname⟩ := exists_spelling_of_readWindow? hn
  rw [(checkBand_eq_ok hband).1] at hsb
  rw [← (ofSides_eq_ok hwindow).1] at hsw
  rw [← (ofSides_eq_ok hwindow).2] at hsh
  have hfirst : ∀ ch ∈ (windowSpelling band width height).toList.head?,
      ch ≠ 'm' ∧ isDigit ch = false := by
    have hlist := toList_windowSpelling "" band width height
    rw [String.empty_append] at hlist
    rw [hlist]
    rintro ch ⟨⟩
    decide
  have hpositional := isPositionalName_root_append image suffix
  rw [hname] at hpositional
  rw [h.root_of_isPositionalName hroot hfirst hpositional] at hname
  exact ⟨band, width, height, hsb, hsw, hsh,
    (root_append_inj hdigit (fun ch hch => (hfirst ch hch).2) hname).2⟩

/-! ### Slots of windows -/

/-- The slot of a window, which may have to be made. -/
def windowSlot (c : Catalog) (key : WindowKey) : Nat :=
  (c.windows.lookup key).getD c.slots.size

/-- A name that leads to a window leads to the slot of the window. -/
theorem WellFormed.eq_windowSlot (hc : c.WellFormed) {name : String} {slot : Nat} {key : WindowKey}
    (hresolve : c.resolve name = .ok (slot, c'))
    (hslot : c'.slots[slot]? = some ⟨windowName key, .window key⟩) : slot = c.windowSlot key := by
  unfold windowSlot
  cases hname : c.names.lookup name with
  | some slot' =>
    rw [resolve_of_lookup hname] at hresolve
    cases hresolve
    rw [lookup_of_mem_of_nodup hc.nodup_windows (hc.mem_windows.2 hslot)]
    rfl
  | none =>
    obtain ⟨key', -, hadd⟩ := addWindow_of_resolve hname hresolve
    have hmade := hc.getElem?_addWindow name key'
    rw [hadd, hslot] at hmade
    obtain rfl : key = key' := Kind.window.inj (congrArg Variable.kind (Option.some.inj hmade))
    unfold Catalog.addWindow at hadd
    cases hkey : c.windows.lookup key <;>
    · rw [hkey] at hadd
      exact (congrArg Prod.fst hadd).symm

/-! ### Names that have been taken -/

/-- A name has been given to something: it is a root of an input, or a number or a matrix has been
declared under it. -/
def Taken (c : Catalog) (name : String) : Prop :=
  (∃ image, c.roots.lookup name = some image) ∨
    ∃ slot v, c.names.lookup name = some slot ∧ c.slots[slot]? = some v ∧ v.kind.listedAs? = none

/-- A name that has been taken leads to a variable that is no window. -/
theorem Accounted.exists_of_taken (h : c.Accounted) (hc : c.WellFormed) {name : String}
    (htaken : c.Taken name) : ∃ slot v, c.names.lookup name = some slot ∧
      c.slots[slot]? = some v ∧ ∀ key, v.kind ≠ .window key := by
  rcases htaken with ⟨image, hroot⟩ | ⟨slot, v, hname, hv, hkind⟩
  · have hs := List.getElem?_eq_getElem (hc.image_lt _ (mem_of_lookup hroot))
    obtain ⟨slot, hname, hslot⟩ := h.mirrors hroot hs List.mem_cons_self
    rw [String.append_empty] at hname
    exact ⟨slot, _, hname, hslot, nofun⟩
  · refine ⟨slot, v, hname, hv, fun key hwindow => ?_⟩
    rw [hwindow] at hkind
    cases hkind

/-- A name that is in use and asks for a window has been taken, or leads to the window. -/
theorem Accounted.taken_or_window (h : c.Accounted) {name : String} {key : WindowKey}
    (hasked : c.asked name = .ok key) {slot : Nat} (hname : c.names.lookup name = some slot) :
    c.Taken name ∨ c.slots[slot]? = some ⟨windowName key, .window key⟩ := by
  obtain ⟨n, hn, -, -, -⟩ := asked_eq_ok_iff.1 hasked
  obtain ⟨band, width, height, -, hwidth, hheight, hspelled⟩ := exists_spelling_of_readWindow? hn
  have hletter := mem_windowSpelling n.root band width height
  rw [← hspelled] at hletter
  obtain ⟨v, hv, hstands⟩ := h.stands_of_lookup hname
  cases hstands with
  | column => exact absurd hletter (by decide)
  | row => exact absurd hletter (by decide)
  | declared _ hkind => exact Or.inl (Or.inr ⟨slot, _, hname, hv, hkind⟩)
  | mirrored hroot _ he =>
    left
    rw [ending_eq_empty he hwidth hheight hspelled.symm, String.append_empty]
    exact Or.inl ⟨_, hroot⟩
  | window hasked' =>
    rw [hasked] at hasked'
    cases hasked'
    exact Or.inr hv

/-! ### Aliases -/

/-- What can be relied on of the names of an input under an alias. -/
structure Mirrored (c : Catalog) (a : String) (image : Nat) (s : Source) : Prop where
  /-- The variables that are always there are found under both roots, and nothing has to be made. -/
  fixed : ∀ e ∈ endings image s.raster.bands, ∃ slot,
    c.resolve (positionalRoot image ++ e.1) = .ok (slot, c) ∧ c.resolve (a ++ e.1) = .ok (slot, c)
  /-- Whatever else may follow the positional root, not going on with its number, spells a window,
  and leads to the same slot under the alias exactly if the name has not been taken. -/
  window : ∀ (suffix : String) (slot : Nat) (c' : Catalog),
    (∀ e ∈ endings image s.raster.bands, suffix ≠ e.1) →
    (∀ ch ∈ suffix.toList.head?, isDigit ch = false) →
    c.resolve (positionalRoot image ++ suffix) = .ok (slot, c') →
    (∃ band width height j w h, Spells band j ∧ Spells width w ∧ Spells height h ∧
      suffix = windowSpelling band width height) ∧
    ((∃ c'', c.resolve (a ++ suffix) = .ok (slot, c'')) ↔ ¬ c.Taken (a ++ suffix))

/-- A positional root and what follows it, if that is the ending of no variable, lead to a window if
they lead anywhere. -/
theorem Accounted.asked_of_resolve (h : c.Accounted) (hc : c.WellFormed)
    (hs : c.inputs[image]? = some s) (hother : ∀ e ∈ endings image s.raster.bands, suffix ≠ e.1)
    (hdigit : ∀ ch ∈ suffix.toList.head?, isDigit ch = false) {slot : Nat}
    (hresolve : c.resolve (positionalRoot image ++ suffix) = .ok (slot, c')) :
    ∃ key, c.asked (positionalRoot image ++ suffix) = .ok key ∧
      c'.slots[slot]? = some ⟨windowName key, .window key⟩ := by
  have hpositional := isPositionalName_root_append image suffix
  generalize hwhole : positionalRoot image ++ suffix = name at hresolve hpositional
  cases hname : c.names.lookup name with
  | none =>
    obtain ⟨key, hasked, hadd⟩ := addWindow_of_resolve hname hresolve
    have hmade := hc.getElem?_addWindow name key
    rw [hadd] at hmade
    exact ⟨key, hasked, hmade⟩
  | some slot' =>
    rw [resolve_of_lookup hname] at hresolve
    cases hresolve
    rcases h.cases_of_isPositionalName hpositional hname with
      ⟨image', s', hs', e, he, hending⟩ | hwindow
    · obtain ⟨rfl, rfl⟩ := root_append_inj hdigit
        (fun ch hch => (head?_of_mem_endings he ch hch).2) (hwhole.trans hending)
      rw [hs] at hs'
      cases hs'
      exact absurd rfl (hother e he)
    · exact hwindow

/-- Every root of an input mirrors the positional one. -/
theorem Accounted.mirrored_of_root (h : c.Accounted) (hc : c.WellFormed)
    (hs : c.inputs[image]? = some s) (ha : c.roots.lookup a = some image) :
    c.Mirrored a image s := by
  have hroot : c.roots.lookup (positionalRoot image) = some image :=
    hc.lookup_root.2 ⟨rfl, (List.getElem?_eq_some_iff.1 hs).1⟩
  exact {
    fixed := by
      intro e he
      obtain ⟨slot, hname, hslot⟩ := h.mirrors hroot hs he
      obtain ⟨slot', hname', hslot'⟩ := h.mirrors ha hs he
      obtain rfl := hc.slot_eq_of_name_eq hslot hslot' rfl
      exact ⟨slot, resolve_of_lookup hname, resolve_of_lookup hname'⟩
    window := by
      intro suffix slot c' hother hdigit hresolve
      obtain ⟨key, hasked, hslot⟩ := h.asked_of_resolve hc hs hother hdigit hresolve
      obtain ⟨band, width, height, hband, hwidth, hheight, rfl⟩ :=
        h.exists_spelling_of_asked hdigit hasked
      refine ⟨⟨band, width, height, _, _, _, hband, hwidth, hheight, rfl⟩, ?_⟩
      -- the alias asks for the same window, for it leads to the same input
      have hsame : c.asked (a ++ windowSpelling band width height) = .ok key :=
        (asked_windowSpelling_eq_ok_iff hband hwidth hheight ha hs).2
          ((asked_windowSpelling_eq_ok_iff hband hwidth hheight hroot hs).1 hasked)
      constructor
      · rintro ⟨c'', hresolve'⟩ htaken
        obtain ⟨slot', v, hname, hv, hkind⟩ := h.exists_of_taken hc htaken
        rw [resolve_of_lookup hname] at hresolve'
        cases hresolve'
        have hkept := (hc.resolve hresolve).2.1.slots _ _ hv
        rw [hslot] at hkept
        exact hkind key (congrArg Variable.kind (Option.some.inj hkept)).symm
      · intro hfree
        rw [hc.eq_windowSlot hresolve hslot]
        cases hname : c.names.lookup (a ++ windowSpelling band width height) with
        | none =>
          have hmake : c.resolve (a ++ windowSpelling band width height) =
              .ok (c.addWindow (a ++ windowSpelling band width height) key) := by
            rw [resolve_of_not_used hname, hsame]
            rfl
          rw [← hc.eq_windowSlot hmake (hc.getElem?_addWindow _ key)]
          exact ⟨_, hmake⟩
        | some slot' =>
          have hused := (h.taken_or_window hsame hname).resolve_left hfree
          rw [← hc.eq_windowSlot (resolve_of_lookup hname) hused]
          exact ⟨c, resolve_of_lookup hname⟩ }

/-- The alias that an input has been registered under is one of its roots. -/
theorem lookup_alias_of_register {source : Source}
    (h : c.register source (some a) = .ok (image, c')) :
    c'.roots.lookup a = some image ∧ c'.inputs[image]? = some source := by
  obtain ⟨aliases, -, rfl, halias, -, rfl⟩ := register_eq_ok h
  have hmem : a ∈ positionalRoot c.inputs.length :: aliases := by
    unfold checkAlias at halias
    dsimp only at halias
    split at halias
    · next hroot => exact hroot ▸ List.mem_cons_self
    · split at halias
      · cases halias
        exact List.mem_cons_of_mem _ List.mem_cons_self
      · cases halias
  exact ⟨lookup_root_enrol c source hmem, List.getElem?_concat_length⟩

/-- **Aliases**: an alias mirrors the positional root of its input for good, but for windows whose
names under the alias have been taken. -/
theorem Reachable.mirrored {c₀ c₁ : Catalog} {source : Source} (hc : c₀.Reachable)
    (hregister : c₀.register source (some a) = .ok (image, c₁)) (hlater : c₁.LeadsTo c) :
    c.Mirrored a image source := by
  obtain ⟨ha, hs⟩ := lookup_alias_of_register hregister
  have hc₁ : c₁.Reachable := LeadsTo.register hc hregister
  have hreachable : c.Reachable := LeadsTo.trans hc₁ hlater
  have hgrows := (hc₁.wellFormed.leadsTo hlater).2
  exact hreachable.accounted.mirrored_of_root hreachable.wellFormed
    (getElem?_of_isPrefix hgrows.inputs hs) (hgrows.roots ha)

/-- A window under the alias of a cell. -/
theorem resolve_mirroredWindow :
    initial.Reachable ∧ initial.register Sample.cell (some "a") = .ok Sample.aliased ∧
      ∃ slot c' c'', Sample.aliased.2.resolve (positionalRoot 0 ++ "b1N3x3") = .ok (slot, c') ∧
        Sample.aliased.2.resolve ("a" ++ "b1N3x3") = .ok (slot, c'') := by
  have hregister : initial.register Sample.cell (some "a") = .ok Sample.aliased := eq_ok_valueOf _
  have hok : (Sample.aliased.2.resolve (positionalRoot 0 ++ "b1N3x3")).isOk = true := by
    decide +kernel
  have hfree : ¬ Sample.aliased.2.Taken ("a" ++ "b1N3x3") := by
    rintro (⟨image, hroot⟩ | ⟨slot, v, hname, -⟩)
    · have hnone : Sample.aliased.2.roots.lookup ("a" ++ "b1N3x3") = none := by decide +kernel
      rw [hnone] at hroot
      cases hroot
    · have hnone : Sample.aliased.2.names.lookup ("a" ++ "b1N3x3") = none := by decide +kernel
      rw [hnone] at hname
      cases hname
  have hmirrored := Reachable.mirrored .refl hregister .refl
  have hdigit : ∀ ch ∈ "b1N3x3".toList.head?, isDigit ch = false := by
    rintro ch ⟨⟩
    decide
  obtain ⟨-, hiff⟩ := hmirrored.window "b1N3x3" _ _ (by decide +kernel) hdigit
    (eq_ok_valueOf hok)
  obtain ⟨c'', hresolve⟩ := hiff.2 hfree
  exact ⟨.refl, hregister, _, _, c'', eq_ok_valueOf hok, hresolve⟩

/-- The catalog of the cell, in which the name of a window under the alias has been taken. -/
def Sample.captured : Catalog :=
  valueOf (Sample.aliased.2.declareConstant "ab1N3x3" 7) (by decide +kernel)

/-- A window of the cell is found under its positional root and not under its alias, for a number
has been declared under the name. -/
theorem resolve_captured :
    initial.register Sample.cell (some "a") = .ok Sample.aliased ∧ "a" ≠ positionalRoot 0 ∧
      Sample.aliased.2.LeadsTo Sample.captured ∧
      ∃ slot c', Sample.captured.resolve (positionalRoot 0 ++ "b1N3x3") = .ok (slot, c') ∧
        ¬ ∃ c'', Sample.captured.resolve ("a" ++ "b1N3x3") = .ok (slot, c'') := by
  have hdeclare : Sample.aliased.2.declareConstant "ab1N3x3" 7 = .ok Sample.captured :=
    eq_ok_valueOf _
  have hwindow : ((Sample.captured.resolve (positionalRoot 0 ++ "b1N3x3")).toOption.map
      Prod.fst) = some 12 := by decide +kernel
  have hnumber : ((Sample.captured.resolve ("a" ++ "b1N3x3")).toOption.map Prod.fst) = some 11 := by
    decide +kernel
  obtain ⟨⟨slot, c'⟩, hresolve, hslot⟩ := Option.map_eq_some_iff.1 hwindow
  obtain rfl : slot = 12 := hslot
  refine ⟨eq_ok_valueOf _, by decide +kernel, .declareConstant .refl hdeclare, 12, c',
    eq_ok_of_toOption hresolve, ?_⟩
  rintro ⟨c'', hresolve'⟩
  rw [hresolve'] at hnumber
  cases hnumber

end MapAlgebra.Catalog
