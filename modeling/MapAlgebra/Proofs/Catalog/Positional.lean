import MapAlgebra.Proofs.Catalog.Representation
import MapAlgebra.Proofs.Catalog.Standing

/-!
# Positional names

A name that starts with the positional root of an input means what it spells, in every reachable
catalog: no declaration and no alias can take it, before or after the input is registered. Main
statement: **`Catalog.Reachable.positional`**, which says of an input what each of its positional
names leads to, why the others lead nowhere, and when two names of windows lead to one window.

A name cannot be taken because everything that is declared, and every alias with an ending, does not
look like a positional name (`isPositionalName_append`); windows that have been made are under names
that ask for them (`Catalog.Accounted`).
-/

namespace MapAlgebra.Catalog

open Decimal

variable {c c' : Catalog} {image : Nat} {s : Source}

/-! ### Spelled names -/

/-- The positional names of an input of so many bands that are not names of windows, and what they
spell. Inputs and bands count from one in names. -/
inductive Spelled (image bands : Nat) : String → Kind → Prop where
  /-- All samples of a cell. -/
  | pixel : Spelled image bands s!"im{image + 1}" (.pixel image bands)
  /-- The sample of a band. -/
  | band {j : Nat} : 1 ≤ j → j ≤ bands → Spelled image bands s!"im{image + 1}b{j}"
      (.band image (j - 1))
  /-- The first coordinate of a cell. -/
  | physicalX : Spelled image bands s!"im{image + 1}PhyX" (.physicalX image)
  /-- The second coordinate of a cell. -/
  | physicalY : Spelled image bands s!"im{image + 1}PhyY" (.physicalY image)
  /-- A statistic of a band. -/
  | statistic {j : Nat} (which : Statistic) : 1 ≤ j → j ≤ bands →
      Spelled image bands s!"im{image + 1}b{j}{which.suffix}" (.statistic image (j - 1) which)

/-- What is spelled is a root and an ending. -/
theorem Spelled.exists_ending {bands : Nat} {name : String} {kind : Kind}
    (h : Spelled image bands name kind) :
    ∃ e ∈ endings image bands, name = positionalRoot image ++ e.1 ∧ kind = e.2 := by
  cases h with
  | pixel => exact ⟨("", _), by simp [endings], by rw [String.append_empty]; rfl, rfl⟩
  | @band j hpos hle =>
    refine ⟨(bandEnding (j - 1), .band image (j - 1)), ?_, ?_, rfl⟩
    · simp only [endings, List.cons_append, List.mem_cons, List.mem_append, List.mem_map]
      exact Or.inr (Or.inl (Or.inl ⟨j - 1, List.mem_range.2 (by omega), rfl⟩))
    · simp [positionalRoot, bandEnding, Nat.sub_add_cancel hpos, String.append_assoc]
  | physicalX => exact ⟨("PhyX", _), by simp [endings], rfl, rfl⟩
  | physicalY => exact ⟨("PhyY", _), by simp [endings], rfl, rfl⟩
  | @statistic j which hpos hle =>
    refine ⟨(bandEnding (j - 1) ++ which.suffix, .statistic image (j - 1) which), ?_, ?_, rfl⟩
    · have hwhich : which ∈ Statistic.all := by cases which <;> decide
      simp only [endings, List.mem_append, List.mem_flatMap, List.mem_map]
      exact Or.inr ⟨j - 1, List.mem_range.2 (by omega), which, hwhich, rfl⟩
    · simp [positionalRoot, bandEnding, Nat.sub_add_cancel hpos, String.append_assoc]
      rfl

/-! ### Looking them up -/

/-- A name that has been looked up leads to its slot from then on, whatever is done. -/
theorem resolve_again (hc : c.WellFormed) {name : String} {slot : Nat}
    (hresolve : c.resolve name = .ok (slot, c')) {later : Catalog} (hlater : c'.LeadsTo later) :
    later.resolve name = .ok (slot, later) := by
  obtain ⟨hdone, -, hname⟩ := hc.resolve hresolve
  exact resolve_of_lookup ((hdone.leadsTo hlater).2.names hname)

/-- If a root and what follows it look like a positional name, the root is the positional one. -/
theorem Accounted.root_of_isPositionalName (h : c.Accounted) {root ending : String}
    (hroot : c.roots.lookup root = some image)
    (hfirst : ∀ ch ∈ ending.toList.head?, ch ≠ 'm' ∧ isDigit ch = false)
    (hpositional : isPositionalName (root ++ ending) = true) : root = positionalRoot image := by
  rcases h.plain _ (mem_of_lookup hroot) with hown | ⟨halias, hplain⟩
  · exact hown
  · rw [isPositionalName_append_of_head halias hplain hfirst] at hpositional
    cases hpositional

/-- A positional name that is in use is a positional root and the ending of a variable, or it asks
for a window and leads there. -/
theorem Accounted.cases_of_isPositionalName (h : c.Accounted) {name : String} {slot : Nat}
    (hpositional : isPositionalName name = true) (hname : c.names.lookup name = some slot) :
    (∃ image s, c.inputs[image]? = some s ∧ ∃ e ∈ endings image s.raster.bands,
      name = positionalRoot image ++ e.1) ∨
    ∃ key, c.asked name = .ok key ∧ c.slots[slot]? = some ⟨windowName key, .window key⟩ := by
  obtain ⟨v, hv, hstands⟩ := h.stands_of_lookup hname
  cases hstands with
  | column => exact absurd hpositional (by decide)
  | row => exact absurd hpositional (by decide)
  | declared hplain _ =>
    rw [hplain] at hpositional
    cases hpositional
  | mirrored hroot hs he =>
    rw [h.root_of_isPositionalName hroot (head?_of_mem_endings he) hpositional]
    exact Or.inl ⟨_, _, hs, _, he, rfl⟩
  | window hasked => exact Or.inr ⟨_, hasked, hv⟩

/-- A positional name that is in use and has the letter of windows is that of a window. -/
theorem Accounted.window_of_lookup (h : c.Accounted) {name : String} {slot : Nat}
    (hpositional : isPositionalName name = true) (hletter : 'N' ∈ name.toList)
    (hname : c.names.lookup name = some slot) :
    ∃ key, c.asked name = .ok key ∧ c.slots[slot]? = some ⟨windowName key, .window key⟩ := by
  rcases h.cases_of_isPositionalName hpositional hname with ⟨_, _, -, e, he, rfl⟩ | hwindow
  · exact absurd hletter (not_mem_root_append he)
  · exact hwindow

/-- A positional name with the letter of windows is looked up by what it asks for. -/
theorem Accounted.resolve_of_asked (h : c.Accounted) (hc : c.WellFormed) {name : String}
    (hpositional : isPositionalName name = true) (hletter : 'N' ∈ name.toList) {key : WindowKey}
    (hasked : c.asked name = .ok key) : ∃ slot c', c.resolve name = .ok (slot, c') ∧
      c'.slots[slot]? = some ⟨windowName key, .window key⟩ := by
  cases hname : c.names.lookup name with
  | none =>
    refine ⟨_, _, ?_, hc.getElem?_addWindow name key⟩
    rw [resolve_of_not_used hname, hasked]
    rfl
  | some slot =>
    obtain ⟨key', hasked', hslot⟩ := h.window_of_lookup hpositional hletter hname
    rw [hasked] at hasked'
    cases hasked'
    exact ⟨slot, c, resolve_of_lookup hname, hslot⟩

/-- A positional name with the letter of windows that asks for none leads nowhere. -/
theorem Accounted.resolve_of_not_asked (h : c.Accounted) {name : String}
    (hpositional : isPositionalName name = true) (hletter : 'N' ∈ name.toList) {e : Failure}
    (hasked : c.asked name = .error e) : c.resolve name = .error e := by
  cases hname : c.names.lookup name with
  | none =>
    rw [resolve_of_not_used hname, hasked]
    rfl
  | some slot =>
    obtain ⟨key, hasked', -⟩ := h.window_of_lookup hpositional hletter hname
    rw [hasked] at hasked'
    cases hasked'

/-- Variables of two slots are one exactly when the slots are. -/
theorem WellFormed.slot_eq_iff (hc : c.WellFormed) {slot slot' : Nat} {v v' : Variable}
    (hv : c.slots[slot]? = some v) (hv' : c.slots[slot']? = some v') : slot = slot' ↔ v = v' := by
  constructor
  · rintro rfl
    exact Option.some.inj (hv.symm.trans hv')
  · rintro rfl
    exact hc.slot_eq_of_name_eq hv hv' rfl

/-! ### Positional names -/

/-- What can be relied on of the positional names of an input. -/
structure Positional (c : Catalog) (image : Nat) (s : Source) : Prop where
  /-- The names that are always there lead to what they spell, and nothing has to be made. -/
  spelled : ∀ (name : String) (kind : Kind), Spelled image s.raster.bands name kind →
    ∃ slot, c.resolve name = .ok (slot, c) ∧ c.slots[slot]? = some ⟨name, kind⟩
  /-- The spelling of a window of a band that is there, of odd sides, leads to the window, made if
  it is not there. -/
  window : ∀ (band width height : String) (j w h : Nat), Spells band j → Spells width w →
    Spells height h → 1 ≤ j → j ≤ s.raster.bands → w % 2 = 1 → h % 2 = 1 →
    ∃ slot c' name key, c.resolve (positionalRoot image ++ windowSpelling band width height) =
        .ok (slot, c') ∧ c'.slots[slot]? = some ⟨name, .window key⟩ ∧
      key.image = image ∧ key.band + 1 = j ∧ key.window.width = w ∧ key.window.height = h
  /-- The spelling of a window of a band that is not there is refused for the band. -/
  noBand : ∀ (band width height : String) (j w h : Nat), Spells band j → Spells width w →
    Spells height h → j = 0 ∨ s.raster.bands < j →
    let name := positionalRoot image ++ windowSpelling band width height
    c.resolve name = .error (.bandOutOfRange "" name j s.raster.bands)
  /-- The spelling of a window of a band that is there is refused for an even side. -/
  evenSide : ∀ (band width height : String) (j w h : Nat), Spells band j → Spells width w →
    Spells height h → 1 ≤ j → j ≤ s.raster.bands → w % 2 = 0 ∨ h % 2 = 0 →
    let name := positionalRoot image ++ windowSpelling band width height
    c.resolve name = .error (.evenWindow "" name w h)
  /-- Two spellings of windows, looked up one after the other with anything done in between, lead to
  one slot exactly when they spell the same numbers. -/
  slot_eq_iff : ∀ (band width height band' width' height' : String) (j w h j' w' h' : Nat),
    Spells band j → Spells width w → Spells height h →
    Spells band' j' → Spells width' w' → Spells height' h' →
    ∀ (slot slot' : Nat) (c₁ c₂ c₃ : Catalog),
      c.resolve (positionalRoot image ++ windowSpelling band width height) = .ok (slot, c₁) →
      c₁.LeadsTo c₂ →
      c₂.resolve (positionalRoot image ++ windowSpelling band' width' height') = .ok (slot', c₃) →
      (slot = slot' ↔ j = j' ∧ w = w' ∧ h = h')
  /-- A name that has been looked up leads to its slot again, whatever has been done since, and
  looking it up changes nothing. -/
  again : ∀ (name : String) (slot : Nat) (c' later : Catalog), c.resolve name = .ok (slot, c') →
    c'.LeadsTo later → later.resolve name = .ok (slot, later)

theorem mem_windowSpelling (root band width height : String) :
    'N' ∈ (root ++ windowSpelling band width height).toList := by
  rw [toList_windowSpelling]
  exact List.mem_append_right _ List.mem_cons_self

/-- What has been looked up under the spelling of a window is the window. -/
theorem Accounted.window_of_resolve (h : c.Accounted) (hc : c.WellFormed)
    (hs : c.inputs[image]? = some s) {band width height : String} {j w k : Nat}
    (hband : Spells band j) (hwidth : Spells width w) (hheight : Spells height k) {slot : Nat}
    (hresolve : c.resolve (positionalRoot image ++ windowSpelling band width height) =
      .ok (slot, c')) :
    ∃ key, c'.slots[slot]? = some ⟨windowName key, .window key⟩ ∧ key.image = image ∧
      key.band + 1 = j ∧ key.window.width = w ∧ key.window.height = k := by
  have hroot : c.roots.lookup (positionalRoot image) = some image :=
    hc.lookup_root.2 ⟨rfl, (List.getElem?_eq_some_iff.1 hs).1⟩
  have hpositional := isPositionalName_root_append image (windowSpelling band width height)
  have hletter := mem_windowSpelling (positionalRoot image) band width height
  cases hasked : c.asked (positionalRoot image ++ windowSpelling band width height) with
  | error e =>
    rw [h.resolve_of_not_asked hpositional hletter hasked] at hresolve
    cases hresolve
  | ok key =>
    obtain ⟨slot', c'', hresolve', hslot⟩ := h.resolve_of_asked hc hpositional hletter hasked
    rw [hresolve] at hresolve'
    cases hresolve'
    exact ⟨key, hslot,
      ((asked_windowSpelling_eq_ok_iff hband hwidth hheight hroot hs).1 hasked).2⟩

/-- **Positional names**: those of every input of a reachable catalog can be relied on. -/
theorem Reachable.positional (hc : c.Reachable) (hs : c.inputs[image]? = some s) :
    c.Positional image s := by
  have hwell := hc.wellFormed
  have hnames := hc.accounted
  have hroot : c.roots.lookup (positionalRoot image) = some image :=
    hwell.lookup_root.2 ⟨rfl, (List.getElem?_eq_some_iff.1 hs).1⟩
  have hpositional := fun band width height =>
    isPositionalName_root_append image (windowSpelling band width height)
  have hletter := mem_windowSpelling (positionalRoot image)
  exact {
    spelled := by
      intro name kind hspelled
      obtain ⟨e, he, rfl, rfl⟩ := hspelled.exists_ending
      obtain ⟨slot, hname, hslot⟩ := hnames.mirrors hroot hs he
      exact ⟨slot, resolve_of_lookup hname, hslot⟩
    window := by
      intro band width height j w h hband hwidth hheight hpos hle hw hh
      have hasked : c.asked (positionalRoot image ++ windowSpelling band width height) =
          .ok ⟨image, j - 1, ⟨w, h, hw, hh⟩⟩ :=
        (asked_windowSpelling_eq_ok_iff hband hwidth hheight hroot hs).2
          ⟨hle, rfl, Nat.sub_add_cancel hpos, rfl, rfl⟩
      obtain ⟨slot, c', hresolve, hslot⟩ :=
        hnames.resolve_of_asked hwell (hpositional ..) (hletter ..) hasked
      exact ⟨slot, c', _, _, hresolve, hslot, rfl, Nat.sub_add_cancel hpos, rfl, rfl⟩
    noBand := by
      intro band width height j w h hband hwidth hheight hno
      refine hnames.resolve_of_not_asked (hpositional ..) (hletter ..) ?_
      rw [asked_windowSpelling hband hwidth hheight hroot hs, if_pos hno]
    evenSide := by
      intro band width height j w h hband hwidth hheight hpos hle heven
      refine hnames.resolve_of_not_asked (hpositional ..) (hletter ..) ?_
      rw [asked_windowSpelling hband hwidth hheight hroot hs, if_neg (by omega),
        dif_neg (by omega)]
    slot_eq_iff := by
      intro band width height band' width' height' j w h j' w' h' hband hwidth hheight hband'
        hwidth' hheight' slot slot' c₁ c₂ c₃ hresolve hbetween hresolve'
      obtain ⟨key, hslot, himage, rfl, rfl, rfl⟩ :=
        hnames.window_of_resolve hwell hs hband hwidth hheight hresolve
      -- the second name is looked up in a catalog that can come about as well
      have hlater : c.LeadsTo c₂ := (LeadsTo.refl.resolve hresolve).trans hbetween
      have hc₂ : c₂.Reachable := LeadsTo.trans hc hlater
      have hs₂ : c₂.inputs[image]? = some s :=
        getElem?_of_isPrefix (hwell.leadsTo hlater).2.inputs hs
      obtain ⟨key', hslot', himage', rfl, rfl, rfl⟩ :=
        hc₂.accounted.window_of_resolve hc₂.wellFormed hs₂ hband' hwidth' hheight' hresolve'
      obtain ⟨hwell₃, hgrows, -⟩ := hc₂.wellFormed.resolve hresolve'
      have hslot₃ := hgrows.slots _ _ (hbetween.extends _ _ hslot)
      rw [hwell₃.slot_eq_iff hslot₃ hslot']
      obtain ⟨i, b, ⟨w, h, _, _⟩⟩ := key
      obtain ⟨i', b', ⟨w', h', _, _⟩⟩ := key'
      obtain rfl : i = i' := himage.trans himage'.symm
      constructor
      · intro heq
        cases Kind.window.inj (congrArg Variable.kind heq)
        exact ⟨rfl, rfl, rfl⟩
      · rintro ⟨hb, hw, hh⟩
        obtain rfl := Nat.succ.inj hb
        obtain rfl : w = w' := hw
        obtain rfl : h = h' := hh
        rfl
    again := fun _ _ _ _ hresolve hlater => resolve_again hwell hresolve hlater }

/-- A window that is spelled with leading zeros, in the catalog of a cell that has an alias. -/
theorem resolve_leadingZeros :
    Sample.aliased.2.Reachable ∧ Sample.aliased.2.inputs[0]? = some Sample.cell ∧
      ∃ slot c' name key, Sample.aliased.2.resolve "im1b01N003x1" = .ok (slot, c') ∧
        c'.slots[slot]? = some ⟨name, .window key⟩ ∧ key.image = 0 ∧ key.band = 0 ∧
        key.window.width = 3 ∧ key.window.height = 1 := by
  have hregister : initial.register Sample.cell (some "a") = .ok Sample.aliased := eq_ok_valueOf _
  have hreachable : Sample.aliased.2.Reachable := .register .refl hregister
  have hinput : Sample.aliased.2.inputs[0]? = some Sample.cell := rfl
  obtain ⟨slot, c', name, key, hresolve, hslot, himage, hband, hwidth, hheight⟩ :=
    (hreachable.positional hinput).window "01" "003" "1" 1 3 1
      (spells_iff.2 (by decide)) (spells_iff.2 (by decide)) (spells_iff.2 (by decide)) (by decide)
      (by decide +kernel) rfl rfl
  exact ⟨hreachable, hinput, slot, c', name, key, hresolve, hslot, himage, Nat.succ.inj hband,
    hwidth, hheight⟩

end MapAlgebra.Catalog
