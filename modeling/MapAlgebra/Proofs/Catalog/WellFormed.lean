import MapAlgebra.Proofs.Catalog.Name
import MapAlgebra.Proofs.Catalog.Reachable

/-!
# Well-formed catalogs

The names, slots, roots, inputs and windows of a catalog describe one another
(`Catalog.WellFormed`): every name leads to a slot, every variable is listed under its own name, the
variables of inputs name inputs and bands that are there, and the windows that have been made are
the variables that are windows. Every operation keeps this up, and it only ever adds names
(`Catalog.Grows`): what a name, a root or a slot stands for does not change.
-/

namespace MapAlgebra

/-! ### Lists of pairs -/

section Pairs

variable {α β : Type} [BEq α] [LawfulBEq α] {l new : List (α × β)} {a k : α} {b : β}

theorem mem_of_lookup (h : l.lookup a = some b) : (a, b) ∈ l := by
  obtain ⟨l₁, l₂, rfl, -⟩ := List.lookup_eq_some_iff.1 h
  exact List.mem_append_right _ List.mem_cons_self

theorem lookup_cons_of_ne (h : a ≠ k) (b : β) : ((k, b) :: l).lookup a = l.lookup a := by
  rw [List.lookup_cons, beq_false_of_ne h]

/-- A pair in front hides nothing if it agrees with what its first part leads to. -/
theorem lookup_cons_of_agrees {b' : β} (hagrees : ∀ c, l.lookup k = some c → c = b')
    (h : l.lookup a = some b) : ((k, b') :: l).lookup a = some b := by
  by_cases hak : a = k
  · rw [hak, List.lookup_cons_self, hagrees b (hak ▸ h)]
  · rw [lookup_cons_of_ne hak, h]

theorem lookup_eq_none_iff_ne : l.lookup a = none ↔ ∀ p ∈ l, a ≠ p.1 := by
  simp only [List.lookup_eq_none_iff, bne_iff_ne]

/-- Where each first part occurs once, every pair is found. -/
theorem lookup_of_mem_of_nodup (hnodup : (l.map (·.1)).Nodup) (h : (a, b) ∈ l) :
    l.lookup a = some b := by
  induction l with
  | nil => cases h
  | cons p l ih =>
    obtain ⟨hp, hl⟩ := List.nodup_cons.1 hnodup
    rcases List.mem_cons.1 h with rfl | h
    · exact List.lookup_cons_self
    · have hne : a ≠ p.1 := by
        rintro rfl
        exact hp (List.mem_map.2 ⟨_, h, rfl⟩)
      rw [lookup_cons_of_ne hne, ih hl h]

end Pairs

/-! ### Kinds -/

namespace Kind

/-- The name a variable of a kind is listed under; a declared variable may have any name. -/
def listedAs? : Kind → Option String
  | .pixel image _ => some (Catalog.positionalRoot image)
  | .band image b => some (Catalog.positionalRoot image ++ Catalog.bandEnding b)
  | .window key => some (Catalog.windowName key)
  | .physicalX image => some (Catalog.positionalRoot image ++ "PhyX")
  | .physicalY image => some (Catalog.positionalRoot image ++ "PhyY")
  | .indexX => some "idxX"
  | .indexY => some "idxY"
  | .statistic image b s =>
    some (Catalog.positionalRoot image ++ (Catalog.bandEnding b ++ s.suffix))
  | .constant _ | .matrix _ => none

/-- The input and the band of a kind are there, and a pixel has as many samples as its input has
bands. -/
def InRange (inputs : List Source) : Kind → Prop
  | .pixel image bands => ∃ s, inputs[image]? = some s ∧ bands = s.raster.bands
  | .band image b | .statistic image b _ =>
    ∃ s, inputs[image]? = some s ∧ b < s.raster.bands
  | .window key => ∃ s, inputs[key.image]? = some s ∧ key.band < s.raster.bands
  | .physicalX image | .physicalY image => ∃ s, inputs[image]? = some s
  | .indexX | .indexY | .constant _ | .matrix _ => True

/-- Inputs that come later make no difference. -/
theorem InRange.append {inputs : List Source} {k : Kind} (h : k.InRange inputs)
    (later : List Source) : k.InRange (inputs ++ later) := by
  have hkeep : ∀ {image : Nat} {s : Source}, inputs[image]? = some s →
      (inputs ++ later)[image]? = some s := fun hs =>
    getElem?_of_isPrefix (List.prefix_append inputs later) hs
  cases k with
  | pixel | band | statistic | window =>
    obtain ⟨s, hs, hband⟩ := h
    exact ⟨s, hkeep hs, hband⟩
  | physicalX | physicalY =>
    obtain ⟨s, hs⟩ := h
    exact ⟨s, hkeep hs⟩
  | indexX | indexY | constant | matrix => trivial

end Kind

namespace Catalog

variable {c c' : Catalog}

/-- The variables of an input are listed under its positional root, and they are in range. -/
theorem kind_of_mem_endings {image bands : Nat} {e : String × Kind} (h : e ∈ endings image bands)
    {inputs : List Source} {s : Source} (hs : inputs[image]? = some s)
    (hbands : s.raster.bands = bands) :
    e.2.listedAs? = some (positionalRoot image ++ e.1) ∧ e.2.InRange inputs := by
  subst hbands
  rcases mem_endings h with rfl | rfl | rfl | ⟨band, hband, rfl⟩ | ⟨band, hband, which, rfl⟩
  · rw [String.append_empty]
    exact ⟨rfl, s, hs, rfl⟩
  · exact ⟨rfl, s, hs⟩
  · exact ⟨rfl, s, hs⟩
  · exact ⟨rfl, s, hs, hband⟩
  · exact ⟨rfl, s, hs, hband⟩

/-! ### The invariant -/

/-- The parts of a catalog describe one another. -/
structure WellFormed (c : Catalog) : Prop where
  /-- A name leads to a slot. -/
  slot_lt : ∀ entry ∈ c.names, entry.2 < c.slots.size
  /-- The name a variable is listed under leads to its slot. -/
  lookup_name : ∀ {slot : Nat} {v : Variable}, c.slots[slot]? = some v →
    c.names.lookup v.name = some slot
  /-- A variable that has not been declared is listed as its kind says. -/
  listed : ∀ {slot : Nat} {v : Variable}, c.slots[slot]? = some v →
    ∀ name ∈ v.kind.listedAs?, v.name = name
  /-- The input and the band of a variable are there. -/
  inRange : ∀ {slot : Nat} {v : Variable}, c.slots[slot]? = some v → v.kind.InRange c.inputs
  /-- A root leads to an input. -/
  image_lt : ∀ entry ∈ c.roots, entry.2 < c.inputs.length
  /-- The positional roots are those of the inputs, each leading to its own. -/
  lookup_root : ∀ {image image' : Nat}, c.roots.lookup (positionalRoot image) = some image' ↔
    image' = image ∧ image < c.inputs.length
  /-- The windows that have been made are the variables that are windows. -/
  mem_windows : ∀ {key : WindowKey} {slot : Nat}, (key, slot) ∈ c.windows ↔
    c.slots[slot]? = some ⟨windowName key, .window key⟩
  /-- A window has been made once. -/
  nodup_windows : (c.windows.map (·.1)).Nodup
  /-- The name of a window that is in use is in use for the window. -/
  lookup_window : ∀ {key : WindowKey} {slot : Nat}, c.names.lookup (windowName key) = some slot →
    c.windows.lookup key = some slot

/-- Another catalog knows what a catalog knows: what slots, names and roots stand for stays, and so
do the inputs. -/
structure Grows (c c' : Catalog) : Prop where
  /-- Variables stay in their slots. -/
  slots : c.Extends c'
  /-- Names lead where they led. -/
  names : ∀ {name : String} {slot : Nat}, c.names.lookup name = some slot →
    c'.names.lookup name = some slot
  /-- Roots lead where they led. -/
  roots : ∀ {root : String} {image : Nat}, c.roots.lookup root = some image →
    c'.roots.lookup root = some image
  /-- New inputs come after the others. -/
  inputs : c.inputs <+: c'.inputs

theorem Grows.refl (c : Catalog) : c.Grows c :=
  ⟨Extends.refl c, fun h => h, fun h => h, List.prefix_refl _⟩

theorem Grows.trans {c'' : Catalog} (h : c.Grows c') (h' : c'.Grows c'') : c.Grows c'' :=
  ⟨h.slots.trans h'.slots, fun hn => h'.names (h.names hn), fun hr => h'.roots (h.roots hr),
    h.inputs.trans h'.inputs⟩

/-! ### New variables -/

theorem getElem?_push {name : String} {kind : Kind} {slot : Nat} {v : Variable} :
    (c.push name kind).2.slots[slot]? = some v ↔
      c.slots[slot]? = some v ∨ slot = c.slots.size ∧ v = ⟨name, kind⟩ := by
  show (c.slots.push ⟨name, kind⟩)[slot]? = some v ↔ _
  rw [Array.getElem?_push]
  constructor
  · intro h
    split at h
    · next hslot => exact Or.inr ⟨hslot, (Option.some.inj h).symm⟩
    · exact Or.inl h
  · rintro (h | ⟨rfl, rfl⟩)
    · rw [if_neg (Nat.ne_of_lt (Array.getElem?_eq_some_iff.1 h).1), h]
    · exact if_pos rfl

/-- A new variable under a free name. -/
theorem grows_push {name : String} (hfree : c.names.lookup name = none) (kind : Kind) :
    c.Grows (c.push name kind).2 where
  slots := extends_push c name kind
  names h := lookup_cons_of_agrees (fun _ hslot => by rw [hfree] at hslot; cases hslot) h
  roots h := h
  inputs := List.prefix_refl _

namespace WellFormed

/-- What stays right of names and slots when a variable is added. -/
theorem slot_lt_push (h : c.WellFormed) (name : String) (kind : Kind) :
    ∀ entry ∈ (c.push name kind).2.names, entry.2 < (c.push name kind).2.slots.size := by
  have hsize : (c.push name kind).2.slots.size = c.slots.size + 1 := Array.size_push ..
  rw [hsize]
  intro entry hentry
  rcases List.mem_cons.1 hentry with rfl | hentry
  · exact Nat.lt_succ_self _
  · exact Nat.lt_succ_of_lt (h.slot_lt entry hentry)

theorem lookup_name_push (h : c.WellFormed) {name : String} (hfree : c.names.lookup name = none)
    {kind : Kind} {slot : Nat} {v : Variable} (hv : (c.push name kind).2.slots[slot]? = some v) :
    (c.push name kind).2.names.lookup v.name = some slot := by
  rcases getElem?_push.1 hv with hv | ⟨rfl, rfl⟩
  · exact (grows_push hfree kind).names (h.lookup_name hv)
  · exact List.lookup_cons_self

theorem listed_push (h : c.WellFormed) {name : String} {kind : Kind}
    (hlisted : ∀ n ∈ kind.listedAs?, name = n) {slot : Nat} {v : Variable}
    (hv : (c.push name kind).2.slots[slot]? = some v) : ∀ n ∈ v.kind.listedAs?, v.name = n := by
  rcases getElem?_push.1 hv with hv | ⟨-, rfl⟩
  · exact h.listed hv
  · exact hlisted

theorem inRange_push (h : c.WellFormed) {name : String} {kind : Kind}
    (hrange : kind.InRange c.inputs) {slot : Nat} {v : Variable}
    (hv : (c.push name kind).2.slots[slot]? = some v) : v.kind.InRange c.inputs := by
  rcases getElem?_push.1 hv with hv | ⟨-, rfl⟩
  · exact h.inRange hv
  · exact hrange

/-- A new variable that is no window, under a free name that is not that of a window. -/
theorem push (h : c.WellFormed) {name : String} {kind : Kind} (hfree : c.names.lookup name = none)
    (hlisted : ∀ n ∈ kind.listedAs?, name = n) (hrange : kind.InRange c.inputs)
    (hname : ∀ key, name ≠ windowName key) : (c.push name kind).2.WellFormed where
  slot_lt := h.slot_lt_push name kind
  lookup_name := h.lookup_name_push hfree
  listed := h.listed_push hlisted
  inRange := h.inRange_push hrange
  image_lt := h.image_lt
  lookup_root := h.lookup_root
  mem_windows := by
    intro key slot
    rw [getElem?_push]
    constructor
    · exact fun hmem => Or.inl (h.mem_windows.1 hmem)
    · rintro (hv | ⟨-, heq⟩)
      · exact h.mem_windows.2 hv
      · exact absurd (congrArg Variable.name heq).symm (hname key)
  nodup_windows := h.nodup_windows
  lookup_window := by
    intro key slot hslot
    have hne : windowName key ≠ name := (hname key).symm
    exact h.lookup_window ((lookup_cons_of_ne hne _).symm.trans hslot)

/-- The name of a window that has not been made is free. -/
theorem lookup_windowName_eq_none (h : c.WellFormed) {key : WindowKey}
    (hkey : c.windows.lookup key = none) : c.names.lookup (windowName key) = none := by
  rw [Option.eq_none_iff_forall_ne_some]
  intro slot hslot
  rw [h.lookup_window hslot] at hkey
  cases hkey

/-- A new window. -/
theorem pushWindow (h : c.WellFormed) {key : WindowKey} (hkey : c.windows.lookup key = none)
    (hrange : (Kind.window key).InRange c.inputs) :
    WellFormed { (c.push (windowName key) (.window key)).2 with
      windows := (key, c.slots.size) :: c.windows } := by
  have hfree := h.lookup_windowName_eq_none hkey
  exact {
    slot_lt := h.slot_lt_push _ _
    lookup_name := h.lookup_name_push hfree
    listed := h.listed_push fun n hn => by cases hn; rfl
    inRange := h.inRange_push hrange
    image_lt := h.image_lt
    lookup_root := h.lookup_root
    mem_windows := by
      intro key' slot
      show _ ↔ (c.push (windowName key) (.window key)).2.slots[slot]? = _
      rw [getElem?_push, ← h.mem_windows, List.mem_cons]
      constructor
      · rintro (heq | hmem)
        · cases heq
          exact Or.inr ⟨rfl, rfl⟩
        · exact Or.inl hmem
      · rintro (hmem | ⟨rfl, heq⟩)
        · exact Or.inr hmem
        · rw [Kind.window.inj (congrArg Variable.kind heq)]
          exact Or.inl rfl
    nodup_windows := by
      refine List.nodup_cons.2 ⟨fun hmem => ?_, h.nodup_windows⟩
      obtain ⟨entry, hentry, rfl⟩ := List.mem_map.1 hmem
      rw [lookup_of_mem_of_nodup h.nodup_windows hentry] at hkey
      cases hkey
    lookup_window := by
      intro key' slot hslot
      by_cases heq : key' = key
      · subst heq
        rw [← hslot]
        exact List.lookup_cons_self.trans List.lookup_cons_self.symm
      · have hne : windowName key' ≠ windowName key := fun hname => heq (windowName_injective hname)
        have hold : c.names.lookup (windowName key') = some slot :=
          (lookup_cons_of_ne hne _).symm.trans hslot
        exact (lookup_cons_of_ne heq _).trans (h.lookup_window hold) }

/-- One more name of a slot, which leads nowhere yet or to that slot already. -/
theorem addName (h : c.WellFormed) {name : String} {slot : Nat} (hslot : slot < c.slots.size)
    (hagrees : ∀ other, c.names.lookup name = some other → other = slot)
    (hwindow : ∀ key, name = windowName key → c.windows.lookup key = some slot) :
    WellFormed { c with names := (name, slot) :: c.names } where
  slot_lt := List.forall_mem_cons.2 ⟨hslot, h.slot_lt⟩
  lookup_name hv := lookup_cons_of_agrees hagrees (h.lookup_name hv)
  listed := h.listed
  inRange := h.inRange
  image_lt := h.image_lt
  lookup_root := h.lookup_root
  mem_windows := h.mem_windows
  nodup_windows := h.nodup_windows
  lookup_window := by
    intro key slot' hslot'
    by_cases heq : windowName key = name
    · rw [heq] at hslot'
      cases List.lookup_cons_self.symm.trans hslot'
      exact hwindow key heq.symm
    · exact h.lookup_window ((lookup_cons_of_ne heq _).symm.trans hslot')

end WellFormed

theorem grows_addName {name : String} {slot : Nat}
    (hagrees : ∀ other, c.names.lookup name = some other → other = slot) :
    c.Grows { c with names := (name, slot) :: c.names } where
  slots := Extends.refl c
  names h := lookup_cons_of_agrees hagrees h
  roots h := h
  inputs := List.prefix_refl _

/-! ### What checks have found -/

theorem checkAvailable_eq_ok {name : String} (h : c.checkAvailable name = .ok ()) :
    Text.isName name = true ∧ c.names.lookup name = none ∧ isPositionalName name = false := by
  unfold checkAvailable at h
  split at h
  · cases h
  · next hname =>
    split at h
    · cases h
    · next hfree =>
      simp only [Bool.or_eq_true, not_or, Bool.not_eq_true, hasName, Option.isSome_eq_false_iff,
        Option.isNone_iff_eq_none] at hfree
      exact ⟨by simpa using hname, hfree.1.1.1, hfree.2⟩

theorem checkAlias_eq_ok {root : String} {alias? : Option String} {aliases : List String}
    (h : c.checkAlias root alias? = .ok aliases) :
    aliases = [] ∨ ∃ name, aliases = [name] ∧ c.checkAvailable name = .ok () := by
  unfold checkAlias at h
  split at h
  · cases h
    exact Or.inl rfl
  · split at h
    · cases h
      exact Or.inl rfl
    · split at h
      · next hname =>
        cases h
        exact Or.inr ⟨_, rfl, hname⟩
      · cases h

theorem collision?_eq_none {entries : List (String × Kind)} {root : String}
    (h : c.collision? entries root = none) :
    c.roots.lookup root = none ∧ ∀ e ∈ entries, c.names.lookup (root ++ e.1) = none := by
  unfold collision? at h
  split at h
  · cases h
  · next hroot =>
    rw [List.find?_eq_none] at h
    exact ⟨Option.not_isSome_iff_eq_none.1 hroot, fun e he =>
      Option.not_isSome_iff_eq_none.1 (h _ (List.mem_map_of_mem he))⟩

theorem checkBand_eq_ok {name : String} {image number band : Nat}
    (h : c.checkBand name image number = .ok band) :
    number = band + 1 ∧ ∃ s, c.inputs[image]? = some s ∧ band < s.raster.bands := by
  unfold checkBand at h
  dsimp only at h
  split at h
  · cases h
  · next hband =>
    cases h
    simp only [Bool.or_eq_true, decide_eq_true_eq, not_or] at hband
    cases hs : c.inputs[image]? with
    | none =>
      rw [hs] at hband
      simp only [Option.map_none, Option.getD_none] at hband
      omega
    | some s =>
      rw [hs] at hband
      simp only [Option.map_some, Option.getD_some] at hband
      exact ⟨by omega, s, rfl, by omega⟩

theorem ofSides_eq_ok {width height : Nat} {w : Window} (h : Window.ofSides width height = .ok w) :
    w.width = width ∧ w.height = height := by
  unfold Window.ofSides at h
  split at h
  · split at h
    · cases h
      exact ⟨rfl, rfl⟩
    · cases h
  · cases h

/-! ### Inputs -/

/-- The variables of an input may be added under all of its roots: their names are free, differ from
each other, and are not names of windows. -/
structure Free (c : Catalog) (root : String) (aliases : List String)
    (entries : List (String × Kind)) : Prop where
  /-- No name is in use. -/
  free : ∀ r ∈ root :: aliases, ∀ e ∈ entries, c.names.lookup (r ++ e.1) = none
  /-- No name is that of a window. -/
  plain : ∀ r ∈ root :: aliases, ∀ e ∈ entries, ∀ key, r ++ e.1 ≠ windowName key
  /-- Different endings make different names, under whichever roots. -/
  apart : entries.Pairwise fun e e' =>
    ∀ r ∈ root :: aliases, ∀ r' ∈ root :: aliases, r' ++ e'.1 ≠ r ++ e.1
  /-- The variables are listed under the first root. -/
  listed : ∀ e ∈ entries, e.2.listedAs? = some (root ++ e.1)
  /-- The input is there. -/
  inRange : ∀ e ∈ entries, e.2.InRange c.inputs

namespace WellFormed

/-- Further names of a slot. -/
theorem addFurther (h : c.WellFormed) {ending : String} {slot : Nat} (hslot : slot < c.slots.size)
    {aliases : List String}
    (hagrees : ∀ a ∈ aliases, ∀ other, c.names.lookup (a ++ ending) = some other → other = slot)
    (hplain : ∀ a ∈ aliases, ∀ key, a ++ ending ≠ windowName key) :
    let c' := { c with names := aliases.map (fun a => (a ++ ending, slot)) ++ c.names }
    c'.WellFormed ∧ c.Grows c' := by
  induction aliases with
  | nil => exact ⟨h, Grows.refl c⟩
  | cons a as ih =>
    obtain ⟨ha, has⟩ := List.forall_mem_cons.1 hagrees
    obtain ⟨hpa, hpas⟩ := List.forall_mem_cons.1 hplain
    obtain ⟨hmid, hgrows⟩ := ih has hpas
    have hagrees' : ∀ other,
        (as.map (fun a => (a ++ ending, slot)) ++ c.names).lookup (a ++ ending) = some other →
          other = slot := by
      intro other hother
      rw [List.lookup_append, Option.or_eq_some_iff] at hother
      rcases hother with hother | ⟨-, hother⟩
      · obtain ⟨_, -, heq⟩ := List.mem_map.1 (mem_of_lookup hother)
        exact (congrArg Prod.snd heq).symm
      · exact ha other hother
    exact ⟨hmid.addName hslot hagrees' fun key hkey => absurd hkey (hpa key),
      hgrows.trans (grows_addName hagrees')⟩

/-- The variables of an input. -/
theorem addEntries : ∀ {entries : List (String × Kind)} {c : Catalog} {root : String}
    {aliases : List String}, c.WellFormed → c.Free root aliases entries →
    (c.addEntries root aliases entries).WellFormed ∧ c.Grows (c.addEntries root aliases entries)
  | [], c, root, aliases, h, _ => ⟨h, Grows.refl c⟩
  | (ending, kind) :: rest, c, root, aliases, h, hfree => by
    have hroot : root ∈ root :: aliases := List.mem_cons_self
    have hnew : c.names.lookup (root ++ ending) = none := hfree.free root hroot _ List.mem_cons_self
    have hpush : (c.push (root ++ ending) kind).2.WellFormed := by
      refine h.push hnew (fun n hn => ?_) (hfree.inRange _ List.mem_cons_self)
        (hfree.plain root hroot _ List.mem_cons_self)
      rw [hfree.listed _ List.mem_cons_self] at hn
      exact Option.some.inj hn
    -- an alias and the ending are free but for the name just made, which may be the same
    have hagrees : ∀ a ∈ aliases, ∀ other,
        (c.push (root ++ ending) kind).2.names.lookup (a ++ ending) = some other →
          other = c.slots.size := by
      intro a ha other hother
      by_cases heq : a ++ ending = root ++ ending
      · rw [heq] at hother
        cases List.lookup_cons_self.symm.trans hother
        rfl
      · have hold := (lookup_cons_of_ne heq _).symm.trans hother
        rw [hfree.free a (List.mem_cons_of_mem _ ha) _ List.mem_cons_self] at hold
        cases hold
    have hsize : c.slots.size < (c.push (root ++ ending) kind).2.slots.size :=
      (Array.size_push ..).symm ▸ Nat.lt_succ_self _
    obtain ⟨hstep, hgrows⟩ := hpush.addFurther hsize hagrees fun a ha =>
      hfree.plain a (List.mem_cons_of_mem _ ha) _ List.mem_cons_self
    obtain ⟨hfirst, hrest⟩ := List.pairwise_cons.1 hfree.apart
    have hfree' : Free { (c.push (root ++ ending) kind).2 with
        names := aliases.map (fun a => (a ++ ending, c.slots.size)) ++
          (c.push (root ++ ending) kind).2.names } root aliases rest := {
      free := by
        intro r hr e he
        have hne := hfirst e he
        rw [lookup_eq_none_iff_ne]
        intro p hp
        rcases List.mem_append.1 hp with hp | hp
        · obtain ⟨a, ha, rfl⟩ := List.mem_map.1 hp
          exact hne a (List.mem_cons_of_mem _ ha) r hr
        · rcases List.mem_cons.1 hp with rfl | hp
          · exact hne root hroot r hr
          · exact lookup_eq_none_iff_ne.1 (hfree.free r hr e (List.mem_cons_of_mem _ he)) p hp
      plain := fun r hr e he => hfree.plain r hr e (List.mem_cons_of_mem _ he)
      apart := hrest
      listed := fun e he => hfree.listed e (List.mem_cons_of_mem _ he)
      inRange := fun e he => hfree.inRange e (List.mem_cons_of_mem _ he) }
    obtain ⟨hdone, hmore⟩ := hstep.addEntries hfree'
    exact ⟨hdone, ((grows_push hnew kind).trans hgrows).trans hmore⟩

end WellFormed

/-- A catalog with one more input, whose variables are not there yet. -/
def enrol (c : Catalog) (source : Source) (aliases : List String) : Catalog :=
  { c with
    roots := (positionalRoot c.inputs.length :: aliases).map (·, c.inputs.length) ++ c.roots
    inputs := c.inputs ++ [source] }

theorem addEntries_enrol (source : Source) (aliases as : List String) (root : String) :
    ∀ (entries : List (String × Kind)) (c : Catalog),
      (c.enrol source aliases).addEntries root as entries =
        (c.addEntries root as entries).enrol source aliases
  | [], _ => rfl
  | (ending, kind) :: rest, c =>
    addEntries_enrol source aliases as root rest { (c.push (root ++ ending) kind).2 with
      names := as.map (fun a => (a ++ ending, c.slots.size)) ++
        (c.push (root ++ ending) kind).2.names }

/-- A registration that succeeds enrols the input and adds its variables. -/
theorem register_eq_addEntries {source : Source} {alias? : Option String} {image : Nat}
    (h : c.register source alias? = .ok (image, c')) :
    ∃ aliases, (∀ a ∈ aliases, Text.isName a = true ∧ isPositionalName a = false) ∧
      aliases.length ≤ 1 ∧
      (∀ r ∈ positionalRoot c.inputs.length :: aliases, c.roots.lookup r = none ∧
        ∀ e ∈ endings c.inputs.length source.raster.bands, c.names.lookup (r ++ e.1) = none) ∧
      c' = ((c.enrol source aliases).addEntries (positionalRoot c.inputs.length) aliases
        (endings c.inputs.length source.raster.bands)).advance := by
  obtain ⟨aliases, -, rfl, halias, hfree, rfl⟩ := register_eq_ok h
  refine ⟨aliases, ?_, ?_, ?_, ?_⟩
  · rcases checkAlias_eq_ok halias with rfl | ⟨name, rfl, hname⟩
    · exact List.forall_mem_nil _
    · obtain ⟨hname, -, hplain⟩ := checkAvailable_eq_ok hname
      exact List.forall_mem_singleton.2 ⟨hname, hplain⟩
  · rcases checkAlias_eq_ok halias with rfl | ⟨name, rfl, -⟩
    · exact Nat.zero_le 1
    · exact Nat.le_refl 1
  · exact fun r hr => collision?_eq_none (List.findSome?_eq_none_iff.1 hfree r hr)
  · rw [addEntries_enrol, enrol, inputs_addEntries, roots_addEntries]

namespace WellFormed

theorem enrol (h : c.WellFormed) (source : Source) {aliases : List String}
    (haliases : ∀ a ∈ aliases, isPositionalName a = false) :
    (c.enrol source aliases).WellFormed where
  slot_lt := h.slot_lt
  lookup_name := h.lookup_name
  listed := h.listed
  inRange hv := (h.inRange hv).append [source]
  image_lt := by
    have hlength : (c.inputs ++ [source]).length = c.inputs.length + 1 := List.length_append
    intro entry hentry
    show _ < (c.inputs ++ [source]).length
    rw [hlength]
    rcases List.mem_append.1 hentry with hentry | hentry
    · obtain ⟨r, -, rfl⟩ := List.mem_map.1 hentry
      exact Nat.lt_succ_self _
    · exact Nat.lt_succ_of_lt (h.image_lt entry hentry)
  lookup_root := by
    intro image image'
    have hlength : (c.inputs ++ [source]).length = c.inputs.length + 1 := List.length_append
    show ((positionalRoot c.inputs.length, c.inputs.length) ::
      (aliases.map (·, c.inputs.length) ++ c.roots)).lookup _ = _ ↔
        _ ∧ _ < (c.inputs ++ [source]).length
    rw [hlength]
    by_cases heq : image = c.inputs.length
    · rw [heq, List.lookup_cons_self, Option.some.injEq]
      exact ⟨fun h => ⟨h.symm, Nat.lt_succ_self _⟩, fun h => h.1.symm⟩
    · have hroot : positionalRoot image ≠ positionalRoot c.inputs.length :=
        fun hroot => heq (positionalRoot_injective hroot)
      have halias : (aliases.map (·, c.inputs.length)).lookup (positionalRoot image) = none := by
        rw [lookup_eq_none_iff_ne]
        intro p hp
        obtain ⟨a, ha, rfl⟩ := List.mem_map.1 hp
        rintro rfl
        have hpositional := isPositionalName_root image
        rw [haliases _ ha] at hpositional
        cases hpositional
      rw [lookup_cons_of_ne hroot, List.lookup_append, halias, Option.none_or, h.lookup_root]
      exact and_congr_right fun _ => by omega
  mem_windows := h.mem_windows
  nodup_windows := h.nodup_windows
  lookup_window := h.lookup_window

theorem advance (h : c.WellFormed) : c.advance.WellFormed := { h with }

/-- The variables of a new input may be added. -/
theorem free_of_register (c : Catalog) (source : Source) {aliases : List String}
    (haliases : ∀ a ∈ aliases, Text.isName a = true ∧ isPositionalName a = false)
    (hlength : aliases.length ≤ 1)
    (hfree : ∀ r ∈ positionalRoot c.inputs.length :: aliases,
      ∀ e ∈ endings c.inputs.length source.raster.bands, c.names.lookup (r ++ e.1) = none) :
    (c.enrol source aliases).Free (positionalRoot c.inputs.length) aliases
      (endings c.inputs.length source.raster.bands) := by
  have hinput : (c.inputs ++ [source])[c.inputs.length]? = some source :=
    List.getElem?_concat_length
  have hnot : ∀ a ∈ aliases, ∀ e ∈ endings c.inputs.length source.raster.bands,
      isPositionalName (a ++ e.1) = false :=
    fun a ha e he => isPositionalName_append (haliases a ha).1 (haliases a ha).2 he
  have hroot : ∀ ending, isPositionalName (positionalRoot c.inputs.length ++ ending) = true :=
    isPositionalName_root_append c.inputs.length
  -- a name like a positional one is no other name
  have hne : ∀ {name name' : String}, isPositionalName name = true →
      isPositionalName name' = false → name ≠ name' := by
    rintro name _ htrue hfalse rfl
    rw [htrue] at hfalse
    cases hfalse
  refine ⟨hfree, fun r hr e he key => ?_, ?_, fun e he => (kind_of_mem_endings he hinput rfl).1,
    fun e he => (kind_of_mem_endings he hinput rfl).2⟩
  · rcases List.mem_cons.1 hr with rfl | ha
    · exact root_append_ne_windowName he key
    · exact ne_windowName (hnot r ha e he) key
  · have hnodup := List.pairwise_map.1 (nodup_endings c.inputs.length source.raster.bands)
    refine hnodup.imp_of_mem fun {e e'} he he' hee' r hr r' hr' heq => ?_
    have hsame : r = r' := by
      rcases List.mem_cons.1 hr with rfl | ha
      · rcases List.mem_cons.1 hr' with rfl | ha'
        · rfl
        · exact absurd heq.symm (hne (hroot _) (hnot r' ha' e' he'))
      · rcases List.mem_cons.1 hr' with rfl | ha'
        · exact absurd heq (hne (hroot _) (hnot r ha e he))
        · match aliases, hlength with
          | [_], _ => rw [List.mem_singleton.1 ha, List.mem_singleton.1 ha']
    rw [hsame] at heq
    exact hee' ((String.append_right_inj r').1 heq).symm

theorem register (h : c.WellFormed) {source : Source} {alias? : Option String} {image : Nat}
    (hregister : c.register source alias? = .ok (image, c')) : c'.WellFormed ∧ c.Grows c' := by
  obtain ⟨aliases, haliases, hlength, hfree, rfl⟩ := register_eq_addEntries hregister
  have henrol := h.enrol source fun a ha => (haliases a ha).2
  obtain ⟨hdone, hgrows⟩ := henrol.addEntries
    (free_of_register c source haliases hlength fun r hr => (hfree r hr).2)
  have hroots : ∀ entry ∈ (positionalRoot c.inputs.length :: aliases).map (·, c.inputs.length),
      c.roots.lookup entry.1 = none := by
    intro entry hentry
    obtain ⟨r, hr, rfl⟩ := List.mem_map.1 hentry
    exact (hfree r hr).1
  refine ⟨hdone.advance, hgrows.slots, hgrows.names, fun {root image} hroot => hgrows.roots ?_,
    (List.prefix_append _ _).trans hgrows.inputs⟩
  show (_ ++ c.roots).lookup root = some image
  have hnew : ((positionalRoot c.inputs.length :: aliases).map (·, c.inputs.length)).lookup root =
      none := by
    rw [lookup_eq_none_iff_ne]
    rintro p hp rfl
    rw [hroots p hp] at hroot
    cases hroot
  rw [List.lookup_append, hnew, Option.none_or, hroot]

/-! ### Declarations -/

/-- A declared variable. -/
theorem declare (h : c.WellFormed) {name : String} (hname : c.checkAvailable name = .ok ())
    (kind : Kind) (hdeclared : kind.listedAs? = none) (hrange : kind.InRange c.inputs) :
    (c.push name kind).2.advance.WellFormed ∧ c.Grows (c.push name kind).2.advance := by
  obtain ⟨-, hfree, hplain⟩ := checkAvailable_eq_ok hname
  have hpush : (c.push name kind).2.WellFormed := by
    refine h.push hfree (fun n hn => ?_) hrange (ne_windowName hplain)
    rw [hdeclared] at hn
    cases hn
  have hgrows := grows_push hfree kind
  exact ⟨hpush.advance, hgrows.slots, hgrows.names, hgrows.roots, hgrows.inputs⟩

/-! ### Windows -/

/-- If a name that asks for a window is itself the name of a window, it is the name of the window
that it asks for. -/
theorem key_of_windowName (h : c.WellFormed) {name : String} {n : WindowName} {image band : Nat}
    {window : Window} (hn : readWindow? name = some n) (hroot : c.roots.lookup n.root = some image)
    (hnumber : n.band = band + 1) (hwindow : Window.ofSides n.width n.height = .ok window)
    {key : WindowKey} (hname : name = windowName key) : key = ⟨image, band, window⟩ := by
  subst hname
  obtain rfl := eq_of_readWindow?_windowName hn
  obtain ⟨rfl, -⟩ := h.lookup_root.1 hroot
  obtain rfl := Nat.succ.inj hnumber
  obtain ⟨hwidth, hheight⟩ := ofSides_eq_ok hwindow
  obtain ⟨image, band, ⟨width, height, _, _⟩⟩ := key
  obtain ⟨width', height', _, _⟩ := window
  obtain rfl : width' = width := hwidth
  obtain rfl : height' = height := hheight
  rfl

/-- A window is there already, or it is made. A name that was free then leads nowhere still, or to
the window, if it is the name of the window. -/
theorem exists_addWindow (h : c.WellFormed) {name : String} {key : WindowKey}
    (hname : c.names.lookup name = none) (hrange : (Kind.window key).InRange c.inputs) :
    ∃ (mid : Catalog) (slot : Nat), mid.WellFormed ∧ c.Grows mid ∧
      mid.windows.lookup key = some slot ∧
      (∀ other, mid.names.lookup name = some other → other = slot) ∧
      c.addWindow name key = (slot, { mid with names := (name, slot) :: mid.names }) := by
  cases hlookup : c.windows.lookup key with
  | some slot =>
    refine ⟨c, slot, h, Grows.refl c, hlookup, fun other hother => ?_, ?_⟩
    · rw [hname] at hother
      cases hother
    · simp only [Catalog.addWindow, hlookup]
  | none =>
    have hgrows := grows_push (h.lookup_windowName_eq_none hlookup) (.window key)
    refine ⟨_, c.slots.size, h.pushWindow hlookup hrange,
      ⟨hgrows.slots, hgrows.names, hgrows.roots, hgrows.inputs⟩, List.lookup_cons_self,
      fun other hother => ?_, ?_⟩
    · by_cases heq : name = windowName key
      · rw [heq] at hother
        cases List.lookup_cons_self.symm.trans hother
        rfl
      · rw [(lookup_cons_of_ne heq _).symm.trans hother] at hname
        cases hname
    · simp only [Catalog.addWindow, hlookup]
      rfl

/-- The window that a name asks for. -/
theorem addWindow (h : c.WellFormed) {name : String} {n : WindowName} {image band : Nat}
    {window : Window} (hname : c.names.lookup name = none) (hn : readWindow? name = some n)
    (hroot : c.roots.lookup n.root = some image)
    (hband : c.checkBand name image n.band = .ok band)
    (hwindow : Window.ofSides n.width n.height = .ok window) :
    let r := c.addWindow name ⟨image, band, window⟩
    r.2.WellFormed ∧ c.Grows r.2 ∧ r.2.names.lookup name = some r.1 := by
  obtain ⟨hnumber, s, hs, hlt⟩ := checkBand_eq_ok hband
  obtain ⟨mid, slot, hmid, hgrows, hmade, hagrees, hadd⟩ :=
    h.exists_addWindow hname (show (Kind.window ⟨image, band, window⟩).InRange c.inputs from
      ⟨s, hs, hlt⟩)
  have hslot : slot < mid.slots.size :=
    (Array.getElem?_eq_some_iff.1 (hmid.mem_windows.1 (mem_of_lookup hmade))).1
  intro r
  rw [show r = _ from hadd]
  refine ⟨hmid.addName hslot hagrees fun key hkey => ?_, hgrows.trans (grows_addName hagrees),
    List.lookup_cons_self⟩
  rw [h.key_of_windowName hn hroot hnumber hwindow hkey, hmade]

/-! ### Operations -/

/-- A name that is looked up leads to its slot from then on. -/
theorem resolve (h : c.WellFormed) {name : String} {slot : Nat}
    (hresolve : c.resolve name = .ok (slot, c')) :
    c'.WellFormed ∧ c.Grows c' ∧ c'.names.lookup name = some slot := by
  rcases resolve_eq_ok hresolve with
    ⟨hname, rfl⟩ | ⟨hname, n, image, band, window, hn, hroot, hband, hwindow, hadd⟩
  · exact ⟨h, Grows.refl c, hname⟩
  · have hdone := h.addWindow hname hn hroot hband hwindow
    rwa [hadd] at hdone

theorem resolveAll (h : c.WellFormed) (names : List String) :
    (c.resolveAll names).2.WellFormed ∧ c.Grows (c.resolveAll names).2 := by
  induction names generalizing c with
  | nil => exact ⟨h, Grows.refl c⟩
  | cons name rest ih =>
    unfold Catalog.resolveAll
    split
    · next slot c' hresolve =>
      obtain ⟨hmid, hgrows, -⟩ := h.resolve hresolve
      exact ⟨(ih hmid).1, hgrows.trans (ih hmid).2⟩
    · exact ih h
    · exact ⟨h, Grows.refl c⟩

theorem compile (h : c.WellFormed) (text : String) (t : PixelType) :
    (c.compile text t).2.WellFormed ∧ c.Grows (c.compile text t).2 := by
  rcases compile_snd c text t with hsame | ⟨names, hresolved⟩
  · rw [hsame]
    exact ⟨h, Grows.refl c⟩
  · rw [hresolved]
    exact h.resolveAll names

/-- **Catalogs**: every operation keeps a catalog well formed, and it only adds to what the catalog
knows. -/
theorem leadsTo (h : c.WellFormed) (hlater : c.LeadsTo c') : c'.WellFormed ∧ c.Grows c' := by
  induction hlater with
  | refl => exact ⟨h, Grows.refl c⟩
  | register _ hregister ih =>
    obtain ⟨hdone, hgrows⟩ := ih.1.register hregister
    exact ⟨hdone, ih.2.trans hgrows⟩
  | declareConstant _ hdeclare ih =>
    obtain ⟨hname, rfl⟩ := declareConstant_eq_ok_iff.1 hdeclare
    obtain ⟨hdone, hgrows⟩ := ih.1.declare hname (.constant _) rfl trivial
    exact ⟨hdone, ih.2.trans hgrows⟩
  | declareMatrix _ hdeclare ih =>
    obtain ⟨hname, -, -, -, rfl⟩ := declareMatrix_eq_ok_iff.1 hdeclare
    obtain ⟨hdone, hgrows⟩ := ih.1.declare hname (.matrix _) rfl trivial
    exact ⟨hdone, ih.2.trans hgrows⟩
  | declareMatrixText _ hdeclare ih =>
    obtain ⟨m, -, hdeclare⟩ := declareMatrixText_eq_ok_iff.1 hdeclare
    obtain ⟨hname, -, -, -, rfl⟩ := declareMatrix_eq_ok_iff.1 hdeclare
    obtain ⟨hdone, hgrows⟩ := ih.1.declare hname (.matrix _) rfl trivial
    exact ⟨hdone, ih.2.trans hgrows⟩
  | resolve _ hresolve ih =>
    obtain ⟨hdone, hgrows, -⟩ := ih.1.resolve hresolve
    exact ⟨hdone, ih.2.trans hgrows⟩
  | compile text t _ ih =>
    obtain ⟨hdone, hgrows⟩ := ih.1.compile text t
    exact ⟨hdone, ih.2.trans hgrows⟩

end WellFormed

theorem wellFormed_initial : initial.WellFormed := by
  have hempty : WellFormed ⟨[], #[], [], [], [], 0⟩ := {
    slot_lt := List.forall_mem_nil _
    lookup_name := fun hv => nomatch hv
    listed := fun hv => nomatch hv
    inRange := fun hv => nomatch hv
    image_lt := List.forall_mem_nil _
    lookup_root := ⟨fun h => (nomatch h), fun h => absurd h.2 (Nat.not_lt_zero _)⟩
    mem_windows := ⟨fun h => (nomatch h), fun h => nomatch h⟩
    nodup_windows := List.nodup_nil
    lookup_window := fun h => nomatch h }
  have hcol : WellFormed (push ⟨[], #[], [], [], [], 0⟩ "idxX" .indexX).2 :=
    hempty.push rfl (fun n hn => by cases hn; rfl) trivial (ne_windowName (by decide))
  exact hcol.push (by decide) (fun n hn => by cases hn; rfl) trivial (ne_windowName (by decide))

/-- A reachable catalog is well formed. -/
theorem Reachable.wellFormed (hc : c.Reachable) : c.WellFormed :=
  (wellFormed_initial.leadsTo hc).1

end Catalog

end MapAlgebra
