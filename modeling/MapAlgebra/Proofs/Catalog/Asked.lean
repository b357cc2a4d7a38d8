import MapAlgebra.Proofs.Catalog.WellFormed

/-!
# The window that a name asks for

A name that is not in use may ask for a window of an input: by a root of the input, the number of
the band and the two sides (**`asked_windowSpelling`**). Which window that is depends on the inputs
and their roots, but not on the windows that have been made before (`Catalog.asked`,
**`Grows.asked`**). Looking up a name that is not in use makes the window it asks for
(**`resolve_of_not_used`**), and the name that the window is listed under then asks for it as well
(**`WellFormed.asked_windowName`**).
-/

namespace MapAlgebra.Catalog

open Decimal Text

variable {c c' : Catalog}

/-! ### Asking -/

/-- The window that a name asks for, or why it asks for none. -/
def asked (c : Catalog) (name : String) : Except Failure WindowKey :=
  match readWindow? name with
  | none => .error (c.unresolved name)
  | some n =>
    match c.roots.lookup n.root with
    | none => .error (c.unresolved name)
    | some image => do
      let band ← c.checkBand name image n.band
      match Window.ofSides n.width n.height with
      | .ok window => return ⟨image, band, window⟩
      | .error _ => throw (.evenWindow "" name n.width n.height)

theorem asked_eq_ok_iff {name : String} {key : WindowKey} :
    c.asked name = .ok key ↔ ∃ n, readWindow? name = some n ∧
      c.roots.lookup n.root = some key.image ∧
      c.checkBand name key.image n.band = .ok key.band ∧
      Window.ofSides n.width n.height = .ok key.window := by
  unfold asked
  constructor
  · intro h
    split at h
    · cases h
    · next n hn =>
      split at h
      · cases h
      · next image hroot =>
        obtain ⟨band, hband, h⟩ := bind_eq_ok_iff.1 h
        split at h
        · next window hwindow =>
          cases h
          exact ⟨n, hn, hroot, hband, hwindow⟩
        · cases h
  · rintro ⟨n, hn, hroot, hband, hwindow⟩
    simp only [hn, hroot, hband, hwindow]
    rfl

/-- A name that is in use is looked up at once. -/
theorem resolve_of_lookup {name : String} {slot : Nat} (hname : c.names.lookup name = some slot) :
    c.resolve name = .ok (slot, c) := by
  unfold resolve
  rw [hname]

/-- A name that is not in use is looked up by making the window it asks for. -/
theorem resolve_of_not_used {name : String} (hname : c.names.lookup name = none) :
    c.resolve name = (c.asked name).map (c.addWindow name) := by
  unfold resolve resolveWindow? asked
  rw [hname]
  dsimp only
  cases readWindow? name with
  | none => rfl
  | some n =>
    simp only [Option.bind_eq_bind, Option.bind_some]
    cases c.roots.lookup n.root with
    | none => rfl
    | some image =>
      simp only [Option.bind_some]
      cases c.checkBand name image n.band with
      | error e => rfl
      | ok band => cases Window.ofSides n.width n.height <;> rfl

/-- A look-up makes the window that is asked for, if the name is not in use. -/
theorem addWindow_of_resolve {name : String} {slot : Nat} (hname : c.names.lookup name = none)
    (h : c.resolve name = .ok (slot, c')) :
    ∃ key, c.asked name = .ok key ∧ c.addWindow name key = (slot, c') := by
  rw [resolve_of_not_used hname] at h
  cases hasked : c.asked name with
  | error e =>
    rw [hasked] at h
    cases h
  | ok key =>
    rw [hasked] at h
    exact ⟨key, rfl, Except.ok.inj h⟩

/-- The band of a window that is asked for is one of the bands of its input. -/
theorem inRange_of_asked {name : String} {key : WindowKey} (h : c.asked name = .ok key) :
    (Kind.window key).InRange c.inputs := by
  obtain ⟨n, -, -, hband, -⟩ := asked_eq_ok_iff.1 h
  exact (checkBand_eq_ok hband).2

/-- The number of a band counts from one to the number of bands. -/
theorem checkBand_eq {image : Nat} {s : Source} (hs : c.inputs[image]? = some s) (name : String)
    (number : Nat) : c.checkBand name image number =
      if number = 0 ∨ s.raster.bands < number then
        .error (.bandOutOfRange "" name number s.raster.bands)
      else .ok (number - 1) := by
  unfold checkBand
  simp only [hs, Option.map_some, Option.getD_some, Bool.or_eq_true, decide_eq_true_eq]

theorem checkBand_succ {name : String} {image band : Nat} {s : Source}
    (hs : c.inputs[image]? = some s) (hband : band < s.raster.bands) :
    c.checkBand name image (band + 1) = .ok band := by
  rw [checkBand_eq hs, if_neg (by omega)]
  rfl

/-- A name goes on to ask for a window when the catalog grows. -/
theorem Grows.asked (h : c.Grows c') {name : String} {key : WindowKey}
    (hasked : c.asked name = .ok key) : c'.asked name = .ok key := by
  obtain ⟨later, hlater⟩ := h.inputs
  obtain ⟨s, hs, hlt⟩ := (inRange_of_asked hasked).append later
  rw [hlater] at hs
  obtain ⟨n, hn, hroot, hband, hwindow⟩ := asked_eq_ok_iff.1 hasked
  refine asked_eq_ok_iff.2 ⟨n, hn, h.roots hroot, ?_, hwindow⟩
  rw [(checkBand_eq_ok hband).1]
  exact checkBand_succ hs hlt

/-- Only inputs and roots decide what a name asks for. -/
theorem asked_congr (hinputs : c'.inputs = c.inputs) (hroots : c'.roots = c.roots) (name : String) :
    c'.asked name = c.asked name := by
  unfold asked unresolved checkBand
  rw [hinputs, hroots]

/-! ### Spellings -/

/-- A text spells a number: it is made of digits, of which the first may be zeros, and the number is
not too large to be read. -/
structure Spells (text : String) (n : Nat) : Prop where
  /-- There is a digit. -/
  nonempty : text.toList ≠ []
  /-- There is nothing else. -/
  digits : ∀ c ∈ text.toList, isDigit c = true
  /-- The digits are those of the number. -/
  value : natOfDigits text.toList = n
  /-- The number is not too large. -/
  lt : n < UInt64.size

/-- The ending of a window whose band and sides are spelled as given. -/
def windowSpelling (band width height : String) : String :=
  "b" ++ band ++ "N" ++ width ++ "x" ++ height

namespace Spells

variable {text : String} {n : Nat}

theorem readSize?_eq (h : Spells text n) : readSize? text.toList = some n := by
  have hall : text.toList.all isDigit = true := List.all_eq_true.2 h.digits
  have hempty : text.toList.isEmpty = false := List.isEmpty_eq_false_iff.2 h.nonempty
  unfold readSize?
  rw [hall, hempty, h.value, if_neg]
  simpa using h.lt

theorem not_mem (h : Spells text n) {c : Char} (hc : isDigit c = false) : c ∉ text.toList := by
  intro hmem
  rw [h.digits c hmem] at hc
  cases hc

end Spells

theorem spells_toString {n : Nat} (h : n < UInt64.size) : Spells (toString n) n where
  nonempty := digits_ne_nil n
  digits _ := isDigit_of_mem_digits
  value := natOfDigits_digits n
  lt := h

section Spellings

variable {band width height : String} {nb nw nh : Nat}

theorem toList_windowSpelling (root band width height : String) :
    (root ++ windowSpelling band width height).toList =
      (root.toList ++ 'b' :: band.toList) ++ 'N' :: (width.toList ++ 'x' :: height.toList) := by
  simp only [windowSpelling, String.toList_append, List.append_assoc]
  rfl

/-- What is read off a name that asks for a window: the root before it and the numbers spelled. -/
theorem readWindow?_windowSpelling (hb : Spells band nb) (hw : Spells width nw)
    (hh : Spells height nh) (root : String) :
    readWindow? (root ++ windowSpelling band width height) = some ⟨root, nb, nw, nh⟩ := by
  have hstem : splitLast? 'N' (root ++ windowSpelling band width height).toList =
      some (root.toList ++ 'b' :: band.toList, width.toList ++ 'x' :: height.toList) := by
    rw [toList_windowSpelling]
    refine splitLast?_append ?_
    rw [List.mem_append, List.mem_cons]
    rintro (h | h | h)
    · exact hw.not_mem (by decide) h
    · cases h
    · exact hh.not_mem (by decide) h
  have hsides : splitFirst? 'x' (width.toList ++ 'x' :: height.toList) =
      some (width.toList, height.toList) := splitFirst?_append (hw.not_mem (by decide))
  have hroot : splitLast? 'b' (root.toList ++ 'b' :: band.toList) =
      some (root.toList, band.toList) := splitLast?_append (hb.not_mem (by decide))
  simp only [readWindow?, readBand?, hstem, hsides, hroot, hb.readSize?_eq, hw.readSize?_eq,
    hh.readSize?_eq, Option.bind_eq_bind, Option.bind_some, Option.pure_def, String.ofList_toList]

/-- A root of an input and the spelling of a window ask for that window, if the input has the band
and the sides are odd. The band is looked at first. -/
theorem asked_windowSpelling (hb : Spells band nb) (hw : Spells width nw) (hh : Spells height nh)
    {root : String} {image : Nat} {s : Source} (hroot : c.roots.lookup root = some image)
    (hs : c.inputs[image]? = some s) :
    let name := root ++ windowSpelling band width height
    c.asked name =
      if nb = 0 ∨ s.raster.bands < nb then .error (.bandOutOfRange "" name nb s.raster.bands)
      else if hodd : nw % 2 = 1 ∧ nh % 2 = 1 then .ok ⟨image, nb - 1, ⟨nw, nh, hodd.1, hodd.2⟩⟩
      else .error (.evenWindow "" name nw nh) := by
  intro name
  unfold asked
  rw [readWindow?_windowSpelling hb hw hh root]
  dsimp only
  rw [hroot]
  dsimp only
  rw [checkBand_eq hs]
  split
  · rfl
  · show (match Window.ofSides nw nh with
      | .ok window => Except.ok (⟨image, nb - 1, window⟩ : WindowKey)
      | .error _ => Except.error (Failure.evenWindow "" name nw nh)) = _
    unfold Window.ofSides
    by_cases hwidth : nw % 2 = 1
    · by_cases hheight : nh % 2 = 1
      · rw [dif_pos hwidth, dif_pos hheight, dif_pos ⟨hwidth, hheight⟩]
      · rw [dif_pos hwidth, dif_neg hheight, dif_neg fun h => hheight h.2]
    · rw [dif_neg hwidth, dif_neg fun h => hwidth h.1]

/-- A root and the spelling of a window ask for the window whose numbers are spelled. -/
theorem asked_windowSpelling_eq_ok_iff (hb : Spells band nb) (hw : Spells width nw)
    (hh : Spells height nh) {root : String} {image : Nat} {s : Source}
    (hroot : c.roots.lookup root = some image) (hs : c.inputs[image]? = some s)
    {key : WindowKey} : c.asked (root ++ windowSpelling band width height) = .ok key ↔
      nb ≤ s.raster.bands ∧ key.image = image ∧ key.band + 1 = nb ∧ key.window.width = nw ∧
        key.window.height = nh := by
  rw [asked_windowSpelling hb hw hh hroot hs]
  constructor
  · intro h
    split at h
    · cases h
    · next hband =>
      split at h
      · cases h
        exact ⟨by omega, rfl, Nat.sub_add_cancel (by omega), rfl, rfl⟩
      · cases h
  · rintro ⟨hle, rfl, rfl, rfl, rfl⟩
    rw [if_neg (by omega), dif_pos ⟨key.window.odd_width, key.window.odd_height⟩]
    rfl

/-- A text spells the number that is read off it. -/
theorem spells_iff {text : String} {n : Nat} : Spells text n ↔ readSize? text.toList = some n := by
  refine ⟨Spells.readSize?_eq, fun h => ?_⟩
  have hvalue := readSize?_eq_some h
  unfold readSize? at h
  split at h
  · cases h
  · next hfits =>
    simp only [Bool.or_eq_true, decide_eq_true_eq, not_or, List.isEmpty_iff, Bool.not_eq_true',
      Bool.not_eq_false, List.all_eq_true, Nat.not_le] at hfits
    rw [← hvalue]
    exact ⟨hfits.1.1, hfits.1.2, rfl, hfits.2⟩

theorem spells_ofList {cs : List Char} {n : Nat} (h : readSize? cs = some n) :
    Spells (String.ofList cs) n := by
  rwa [spells_iff, String.toList_ofList]

/-- A name that numbers can be read off is a root and the spelling of a window. -/
theorem exists_spelling_of_readWindow? {name : String} {n : WindowName}
    (h : readWindow? name = some n) : ∃ band width height, Spells band n.band ∧
      Spells width n.width ∧ Spells height n.height ∧
      name = n.root ++ windowSpelling band width height := by
  simp only [readWindow?, readBand?, Option.bind_eq_bind, Option.bind_eq_some_iff, Option.pure_def,
    Option.some.injEq] at h
  obtain ⟨⟨stem, sides⟩, hstem, ⟨width, height⟩, hsides, ⟨_, _⟩,
    ⟨⟨root, digits⟩, hroot, band, hband, heq⟩, w, hwidth, k, hheight, rfl⟩ := h
  cases heq
  refine ⟨_, _, _, spells_ofList hband, spells_ofList hwidth, spells_ofList hheight,
    String.toList_injective ?_⟩
  rw [toList_windowSpelling]
  simp only [String.toList_ofList]
  rw [← eq_of_splitFirst? hsides, ← eq_of_splitLast? hroot, ← eq_of_splitLast? hstem]

end Spellings

/-! ### Names of windows -/

theorem windowName_eq (key : WindowKey) : windowName key = positionalRoot key.image ++
    windowSpelling (toString (key.band + 1)) (toString key.window.width)
      (toString key.window.height) := by
  refine String.toList_injective ?_
  rw [toList_windowName, toList_windowSpelling]
  rfl

/-- The name that a window is listed under asks for it. -/
theorem WellFormed.asked_windowName (h : c.WellFormed) {name : String} {key : WindowKey}
    (hasked : c.asked name = .ok key) : c.asked (windowName key) = .ok key := by
  obtain ⟨s, hs, hlt⟩ := inRange_of_asked hasked
  obtain ⟨n, hn, -, hband, hwindow⟩ := asked_eq_ok_iff.1 hasked
  obtain ⟨hnumber, -⟩ := checkBand_eq_ok hband
  obtain ⟨hwidth, hheight⟩ := ofSides_eq_ok hwindow
  obtain ⟨_, _, _, hsb, hsw, hsh, -⟩ := exists_spelling_of_readWindow? hn
  have hread := readWindow?_windowSpelling (spells_toString (hnumber ▸ hsb.lt))
    (spells_toString (hwidth ▸ hsw.lt)) (spells_toString (hheight ▸ hsh.lt))
    (positionalRoot key.image)
  rw [← windowName_eq] at hread
  refine asked_eq_ok_iff.2 ⟨_, hread, ?_, checkBand_succ hs hlt, ?_⟩
  · exact h.lookup_root.2 ⟨rfl, (List.getElem?_eq_some_iff.1 hs).1⟩
  · rw [hwidth, hheight]
    exact hwindow

/-! ### Making windows -/

@[simp] theorem roots_addWindow (c : Catalog) (name : String) (key : WindowKey) :
    (c.addWindow name key).2.roots = c.roots := by
  unfold addWindow
  cases c.windows.lookup key <;> rfl

/-- The window that is made is in the slot that is answered. -/
theorem WellFormed.getElem?_addWindow (h : c.WellFormed) (name : String) (key : WindowKey) :
    (c.addWindow name key).2.slots[(c.addWindow name key).1]? =
      some ⟨windowName key, .window key⟩ := by
  unfold Catalog.addWindow
  cases hkey : c.windows.lookup key with
  | some slot => exact h.mem_windows.1 (mem_of_lookup hkey)
  | none => exact getElem?_push.2 (Or.inr ⟨rfl, rfl⟩)

/-- Making a window brings in its own name and the name that asks for it. -/
theorem mem_names_addWindow {name : String} {key : WindowKey} {entry : String × Nat}
    (hentry : entry ∈ (c.addWindow name key).2.names) : entry ∈ c.names ∨
      (entry.1 = name ∨ entry.1 = windowName key) ∧ entry.2 = (c.addWindow name key).1 := by
  unfold addWindow at hentry ⊢
  cases hkey : c.windows.lookup key with
  | some slot =>
    simp only [hkey, List.mem_cons] at hentry
    rcases hentry with rfl | hentry
    · exact Or.inr ⟨Or.inl rfl, rfl⟩
    · exact Or.inl hentry
  | none =>
    simp only [hkey, push, List.mem_cons] at hentry
    rcases hentry with rfl | rfl | hentry
    · exact Or.inr ⟨Or.inl rfl, rfl⟩
    · exact Or.inr ⟨Or.inr rfl, rfl⟩
    · exact Or.inl hentry

end MapAlgebra.Catalog
