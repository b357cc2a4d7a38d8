import MapAlgebra.Catalog.Name
import MapAlgebra.Text.Name
import Mathlib.Data.List.Nodup

/-!
# Names of variables

What the names that a catalog makes tell apart. A number is read back from its digits, so the name
of a window says which window it is (**`windowName_injective`**,
**`eq_of_readWindow?_windowName`**); the names of one input differ (**`nodup_endings`**); and no
name that is not like a positional one becomes so by an ending (**`isPositionalName_append`**).
-/

namespace MapAlgebra

open Text Decimal

/-! ### Cutting texts -/

namespace Text

variable {sep : Char} {as bs : List Char}

theorem splitFirst?_append (h : sep ∉ as) : splitFirst? sep (as ++ sep :: bs) = some (as, bs) := by
  induction as with
  | nil => exact if_pos rfl
  | cons a as ih =>
    have ha := List.ne_of_not_mem_cons h
    have has := List.not_mem_of_not_mem_cons h
    simp only [List.cons_append, splitFirst?]
    rw [if_neg (Ne.symm ha), ih has]
    rfl

/-- What is cut apart at the first separator is put together again. -/
theorem eq_of_splitFirst? {cs : List Char} (h : splitFirst? sep cs = some (as, bs)) :
    cs = as ++ sep :: bs := by
  induction cs generalizing as with
  | nil => cases h
  | cons c cs ih =>
    unfold splitFirst? at h
    split at h
    · next hc =>
      cases h
      rw [hc, List.nil_append]
    · obtain ⟨⟨as', bs'⟩, hrest, heq⟩ := Option.map_eq_some_iff.1 h
      cases heq
      rw [List.cons_append, ← ih hrest]

theorem splitLast?_eq_none (h : sep ∉ as) : splitLast? sep as = none := by
  induction as with
  | nil => rfl
  | cons a as ih =>
    have ha := List.ne_of_not_mem_cons h
    have has := List.not_mem_of_not_mem_cons h
    unfold splitLast?
    rw [ih has]
    exact if_neg (Ne.symm ha)

/-- What is cut apart at the last separator is put together again. -/
theorem eq_of_splitLast? {cs : List Char} (h : splitLast? sep cs = some (as, bs)) :
    cs = as ++ sep :: bs := by
  induction cs generalizing as with
  | nil => cases h
  | cons c cs ih =>
    unfold splitLast? at h
    split at h
    · next hrest =>
      cases h
      rw [List.cons_append, ← ih hrest]
    · split at h
      · next hc =>
        cases h
        rw [hc, List.nil_append]
      · cases h

theorem splitLast?_append (h : sep ∉ bs) : splitLast? sep (as ++ sep :: bs) = some (as, bs) := by
  induction as with
  | nil =>
    rw [List.nil_append]
    unfold splitLast?
    rw [splitLast?_eq_none h]
    exact if_pos rfl
  | cons a as ih =>
    rw [List.cons_append]
    unfold splitLast?
    rw [ih]

end Text

namespace Catalog

/-! ### Numbers in names -/

/-- The digits of a number. -/
def digits (n : Nat) : List Char := (toString n).toList

theorem digits_eq (n : Nat) : digits n = Nat.toDigits 10 n := by
  rw [digits, Nat.toString_eq_repr, Nat.toList_repr]

theorem isDigit_of_mem_digits {n : Nat} {c : Char} (h : c ∈ digits n) : isDigit c = true := by
  rw [digits_eq] at h
  have hdigit := Nat.isDigit_of_mem_toDigits (by decide) (Nat.le_refl 10) h
  simp only [Char.isDigit, Bool.and_eq_true, decide_eq_true_eq] at hdigit
  exact Bool.and_eq_true_iff.2 ⟨decide_eq_true hdigit.1, decide_eq_true hdigit.2⟩

theorem not_mem_digits {c : Char} (h : isDigit c = false) (n : Nat) : c ∉ digits n := by
  intro hmem
  rw [isDigit_of_mem_digits hmem] at h
  cases h

theorem natOfDigits_digits (n : Nat) : natOfDigits (digits n) = n := by
  rw [digits_eq]
  exact Nat.ofDigitChars_toDigits (by decide) (Nat.le_refl 10)

theorem digits_injective {m n : Nat} (h : digits m = digits n) : m = n := by
  rw [← natOfDigits_digits m, h, natOfDigits_digits]

theorem digits_ne_nil (n : Nat) : digits n ≠ [] := by
  rw [digits_eq]
  exact Nat.toDigits_ne_nil

theorem readSize?_eq_some {cs : List Char} {n : Nat} (h : readSize? cs = some n) :
    natOfDigits cs = n := by
  unfold readSize? at h
  split at h
  · cases h
  · exact Option.some.inj h

/-- A text that begins with a number and goes on with no digit tells the number from the rest. -/
theorem digits_append_inj {m n : Nat} {cs ds : List Char} (hcs : ∀ c ∈ cs.head?, isDigit c = false)
    (hds : ∀ c ∈ ds.head?, isDigit c = false) (h : digits m ++ cs = digits n ++ ds) :
    m = n ∧ cs = ds := by
  have htake : ∀ {k : Nat} {es : List Char}, (∀ c ∈ es.head?, isDigit c = false) →
      (digits k ++ es).takeWhile isDigit = digits k := by
    intro k es hes
    rw [List.takeWhile_append_of_pos fun c hc => isDigit_of_mem_digits hc]
    cases es with
    | nil => exact List.append_nil _
    | cons e es => rw [List.takeWhile_cons_of_neg (by rw [hes e rfl]; decide), List.append_nil]
  have hmn : digits m = digits n := by rw [← htake hcs, h, htake hds]
  rw [hmn] at h
  exact ⟨digits_injective hmn, List.append_cancel_left h⟩

/-! ### Roots -/

theorem toList_positionalRoot (image : Nat) :
    (positionalRoot image).toList = 'i' :: 'm' :: digits (image + 1) := by
  simp only [positionalRoot, String.toList_append]
  rfl

theorem positionalRoot_injective {image image' : Nat}
    (h : positionalRoot image = positionalRoot image') : image = image' := by
  have hlist := congrArg String.toList h
  rw [toList_positionalRoot, toList_positionalRoot] at hlist
  have hdigits := List.cons.inj (List.cons.inj hlist).2
  exact Nat.succ.inj (digits_injective hdigits.2)

/-- A positional root begins like one, whatever comes after it. -/
theorem isPositionalName_root_append (image : Nat) (ending : String) :
    isPositionalName (positionalRoot image ++ ending) = true := by
  obtain ⟨d, ds, hd⟩ := List.exists_cons_of_ne_nil (digits_ne_nil (image + 1))
  unfold isPositionalName
  rw [String.toList_append, toList_positionalRoot, hd]
  exact isDigit_of_mem_digits (hd ▸ List.mem_cons_self)

theorem isPositionalName_root (image : Nat) : isPositionalName (positionalRoot image) = true := by
  have h := isPositionalName_root_append image ""
  rwa [String.append_empty] at h

/-! ### Endings -/

theorem toList_bandEnding (band : Nat) :
    (bandEnding band).toList = 'b' :: digits (band + 1) := by
  simp only [bandEnding, String.toList_append]
  rfl

theorem head?_suffix (s : Statistic) : ∀ c ∈ s.suffix.toList.head?, isDigit c = false := by
  have hall : s.suffix.toList.head?.all (fun c => !isDigit c) = true := by cases s <;> decide
  simpa [Option.all_eq_true] using hall

/-- An ending of a band and what follows it, which is no digit, tell the band. -/
theorem bandEnding_append_inj {band band' : Nat} {tail tail' : String}
    (htail : ∀ c ∈ tail.toList.head?, isDigit c = false)
    (htail' : ∀ c ∈ tail'.toList.head?, isDigit c = false)
    (h : bandEnding band ++ tail = bandEnding band' ++ tail') : band = band' ∧ tail = tail' := by
  have hlist := congrArg String.toList h
  rw [String.toList_append, String.toList_append, toList_bandEnding, toList_bandEnding] at hlist
  obtain ⟨hband, hsame⟩ := digits_append_inj htail htail' (List.cons.inj hlist).2
  exact ⟨Nat.succ.inj hband, String.toList_injective hsame⟩

theorem bandEnding_injective {band band' : Nat} (h : bandEnding band = bandEnding band') :
    band = band' := by
  have hlist := congrArg String.toList h
  rw [toList_bandEnding, toList_bandEnding] at hlist
  exact Nat.succ.inj (digits_injective (List.cons.inj hlist).2)

theorem mem_endings {image bands : Nat} {e : String × Kind} (h : e ∈ endings image bands) :
    e = ("", .pixel image bands) ∨ e = ("PhyX", .physicalX image) ∨ e = ("PhyY", .physicalY image) ∨
      (∃ band < bands, e = (bandEnding band, .band image band)) ∨
      ∃ band < bands, ∃ s, e = (bandEnding band ++ s.suffix, .statistic image band s) := by
  simp only [endings, List.cons_append, List.append_assoc, List.mem_cons, List.mem_append,
    List.mem_map, List.mem_flatMap, List.mem_range, List.not_mem_nil] at h
  rcases h with rfl | ⟨band, hband, rfl⟩ | rfl | rfl | hnil | ⟨band, hband, s, -, rfl⟩
  · exact Or.inl rfl
  · exact Or.inr (Or.inr (Or.inr (Or.inl ⟨band, hband, rfl⟩)))
  · exact Or.inr (Or.inl rfl)
  · exact Or.inr (Or.inr (Or.inl rfl))
  · cases hnil
  · exact Or.inr (Or.inr (Or.inr (Or.inr ⟨band, hband, s, rfl⟩)))

/-- The endings of coordinates begin with a letter of their own and have no window. -/
theorem head?_physicalEnding {ending : String} (h : ending ∈ ["PhyX", "PhyY"]) :
    ending.toList.head? = some 'P' ∧ 'N' ∉ ending.toList := by
  revert ending
  decide

/-- An ending begins with a letter that is neither of those a positional root begins with, and it
has no window. -/
theorem toList_of_mem_endings {image bands : Nat} {e : String × Kind}
    (h : e ∈ endings image bands) :
    (∀ c ∈ e.1.toList.head?, c = 'b' ∨ c = 'P') ∧ 'N' ∉ e.1.toList := by
  have hdigits := fun n => not_mem_digits (c := 'N') (by decide) n
  have hphysical : ∀ ending ∈ ["PhyX", "PhyY"],
      (∀ c ∈ ending.toList.head?, c = 'b' ∨ c = 'P') ∧ 'N' ∉ ending.toList := by
    intro ending hending
    obtain ⟨hhead, hletter⟩ := head?_physicalEnding hending
    rw [hhead]
    exact ⟨fun c hc => Or.inr (Option.some.inj hc).symm, hletter⟩
  rcases mem_endings h with rfl | rfl | rfl | ⟨band, -, rfl⟩ | ⟨band, -, s, rfl⟩
  · simp
  · exact hphysical "PhyX" (by simp)
  · exact hphysical "PhyY" (by simp)
  · rw [toList_bandEnding]
    refine ⟨fun c hc => ?_, ?_⟩
    · cases hc
      exact Or.inl rfl
    · simp [hdigits]
  · rw [String.toList_append, toList_bandEnding]
    have hsuffix : 'N' ∉ s.suffix.toList := by cases s <;> decide
    refine ⟨fun c hc => ?_, ?_⟩
    · cases hc
      exact Or.inl rfl
    · simp [hdigits, hsuffix]

/-- An ending does not go on with a positional root. -/
theorem head?_of_mem_endings {image bands : Nat} {e : String × Kind} (h : e ∈ endings image bands) :
    ∀ c ∈ e.1.toList.head?, c ≠ 'm' ∧ isDigit c = false := by
  intro c hc
  rcases (toList_of_mem_endings h).1 c hc with rfl | rfl <;> decide

theorem head?_bandEnding (band : Nat) (tail : String) :
    (bandEnding band ++ tail).toList.head? = some 'b' := by
  rw [String.toList_append, toList_bandEnding]
  rfl

/-- The endings of the statistics of all bands differ. -/
theorem nodup_statisticEndings (bands : Nat) : ((List.range bands).flatMap fun band =>
    Statistic.all.map fun s => bandEnding band ++ s.suffix).Nodup := by
  refine List.nodup_flatMap.2 ⟨fun band _ => ?_, ?_⟩
  · have hsuffix : (Statistic.all.map Statistic.suffix).Nodup := by decide
    have hall := hsuffix.map fun _ _ h => (String.append_right_inj (bandEnding band)).1 h
    rwa [List.map_map] at hall
  · refine List.nodup_range.imp fun {band band'} hne => ?_
    intro ending hmem hmem'
    obtain ⟨s, -, rfl⟩ := List.mem_map.1 hmem
    obtain ⟨s', -, h⟩ := List.mem_map.1 hmem'
    exact hne (bandEnding_append_inj (head?_suffix s) (head?_suffix s') h.symm).1

/-- The endings of the variables of an input differ. -/
theorem nodup_endings (image bands : Nat) : ((endings image bands).map (·.1)).Nodup := by
  have hmap : (endings image bands).map (·.1) = "" :: ((List.range bands).map bandEnding ++
      (["PhyX", "PhyY"] ++ (List.range bands).flatMap fun band =>
        Statistic.all.map fun s => bandEnding band ++ s.suffix)) := by
    simp [endings, List.map_flatMap, Function.comp_def]
  have hbands : ((List.range bands).map bandEnding).Nodup :=
    List.nodup_range.map fun _ _ h => bandEnding_injective h
  -- the parts of the list are told apart by the first letter, and the endings of bands and of
  -- statistics by what follows the number
  have hphysical : ∀ ending ∈ ["PhyX", "PhyY"], ending.toList.head? = some 'P' :=
    fun _ hending => (head?_physicalEnding hending).1
  rw [hmap, List.nodup_cons, List.nodup_append, List.nodup_append]
  refine ⟨?_, hbands, ⟨by decide, nodup_statisticEndings bands, ?_⟩, ?_⟩
  · intro hmem
    simp only [List.mem_append, List.mem_map, List.mem_flatMap] at hmem
    rcases hmem with ⟨band, -, h⟩ | hmem | ⟨band, -, s, -, h⟩
    · have hb := head?_bandEnding band ""
      rw [String.append_empty, h] at hb
      cases hb
    · cases hphysical "" hmem
    · have hb := head?_bandEnding band s.suffix
      rw [h] at hb
      cases hb
  · intro ending hmem ending' hmem' h
    obtain ⟨band, -, hmem'⟩ := List.mem_flatMap.1 hmem'
    obtain ⟨s, -, rfl⟩ := List.mem_map.1 hmem'
    have hp := hphysical ending hmem
    rw [h, head?_bandEnding] at hp
    cases hp
  · intro ending hmem ending' hmem' h
    obtain ⟨band, -, rfl⟩ := List.mem_map.1 hmem
    rcases List.mem_append.1 hmem' with hmem' | hmem'
    · have hp := hphysical ending' hmem'
      rw [← h, ← String.append_empty (s := bandEnding band), head?_bandEnding] at hp
      cases hp
    · obtain ⟨band', -, hmem'⟩ := List.mem_flatMap.1 hmem'
      obtain ⟨s, -, rfl⟩ := List.mem_map.1 hmem'
      rw [← String.append_empty (s := bandEnding band)] at h
      have htail := (bandEnding_append_inj (by simp) (head?_suffix s) h).2
      revert htail
      cases s <;> decide

/-! ### Names like positional ones -/

theorem isPositionalName_iff {name : String} :
    isPositionalName name = true ↔
      ∃ c cs, name.toList = 'i' :: 'm' :: c :: cs ∧ isDigit c = true := by
  unfold isPositionalName
  split
  · next c cs h =>
    exact ⟨fun hc => ⟨c, cs, h, hc⟩, fun ⟨c', cs', h', hc⟩ => by rw [h] at h'; cases h'; exact hc⟩
  · next h =>
    constructor
    · intro hfalse
      cases hfalse
    · rintro ⟨c, cs, h', -⟩
      exact absurd h' (h c cs)

/-- A name that is not like a positional one does not become so by what comes after it, if that does
not begin like the end of a positional root. -/
theorem isPositionalName_append_of_head {name ending : String} (hname : Text.isName name = true)
    (hnot : isPositionalName name = false)
    (hfirst : ∀ c ∈ ending.toList.head?, c ≠ 'm' ∧ isDigit c = false) :
    isPositionalName (name ++ ending) = false := by
  refine Bool.eq_false_iff.2 fun hpositional => ?_
  obtain ⟨c, cs, hlist, hc⟩ := isPositionalName_iff.1 hpositional
  rw [String.toList_append] at hlist
  unfold Text.isName at hname
  match h : name.toList with
  | [] =>
    rw [h] at hname
    cases hname
  | [_] =>
    simp only [h, List.cons_append, List.nil_append, List.cons.injEq] at hlist
    exact (hfirst 'm' (by rw [hlist.2]; rfl)).1 rfl
  | [_, _] =>
    simp only [h, List.cons_append, List.nil_append, List.cons.injEq] at hlist
    rw [(hfirst c (by rw [hlist.2.2]; rfl)).2] at hc
    cases hc
  | _ :: _ :: _ :: rest =>
    simp only [h, List.cons_append, List.cons.injEq] at hlist
    obtain ⟨rfl, rfl, rfl, -⟩ := hlist
    rw [isPositionalName_iff.2 ⟨_, rest, h, hc⟩] at hnot
    cases hnot

/-- A name that is not like a positional one does not become so by the ending of a variable. -/
theorem isPositionalName_append {image bands : Nat} {name : String} {e : String × Kind}
    (hname : Text.isName name = true) (hnot : isPositionalName name = false)
    (he : e ∈ endings image bands) : isPositionalName (name ++ e.1) = false :=
  isPositionalName_append_of_head hname hnot (head?_of_mem_endings he)

/-! ### Windows -/

theorem toList_windowName (key : WindowKey) :
    (windowName key).toList = ((positionalRoot key.image).toList ++ 'b' :: digits (key.band + 1)) ++
      'N' :: (digits key.window.width ++ 'x' :: digits key.window.height) := by
  simp only [windowName, windowEnding, String.toList_append, toList_bandEnding, List.append_assoc,
    List.cons_append]
  rfl

theorem isPositionalName_windowName (key : WindowKey) : isPositionalName (windowName key) = true :=
  isPositionalName_root_append key.image _

/-- A name that does not look like that of an input is not that of a window. -/
theorem ne_windowName {name : String} (h : isPositionalName name = false) (key : WindowKey) :
    name ≠ windowName key := by
  rintro rfl
  simp [isPositionalName_windowName] at h

/-- The name of a window takes apart at its letters. -/
theorem split_windowName (key : WindowKey) :
    splitLast? 'N' (windowName key).toList =
        some ((positionalRoot key.image).toList ++ 'b' :: digits (key.band + 1),
          digits key.window.width ++ 'x' :: digits key.window.height) ∧
      splitFirst? 'x' (digits key.window.width ++ 'x' :: digits key.window.height) =
        some (digits key.window.width, digits key.window.height) ∧
      splitLast? 'b' ((positionalRoot key.image).toList ++ 'b' :: digits (key.band + 1)) =
        some ((positionalRoot key.image).toList, digits (key.band + 1)) := by
  refine ⟨?_, splitFirst?_append (not_mem_digits (by decide) _),
    splitLast?_append (not_mem_digits (by decide) _)⟩
  rw [toList_windowName]
  refine splitLast?_append ?_
  rw [List.mem_append, List.mem_cons]
  rintro (h | h | h)
  · exact not_mem_digits (by decide) _ h
  · cases h
  · exact not_mem_digits (by decide) _ h

/-- A window is told by its name. -/
theorem windowName_injective {key key' : WindowKey} (h : windowName key = windowName key') :
    key = key' := by
  obtain ⟨hstem, hsides, hband⟩ := split_windowName key
  obtain ⟨hstem', hsides', hband'⟩ := split_windowName key'
  rw [h, hstem'] at hstem
  obtain ⟨hstems, hsame⟩ := Prod.mk.inj (Option.some.inj hstem)
  rw [← hstems, hband'] at hband
  rw [← hsame, hsides'] at hsides
  obtain ⟨hroot, hnumber⟩ := Prod.mk.inj (Option.some.inj hband)
  obtain ⟨hwidth, hheight⟩ := Prod.mk.inj (Option.some.inj hsides)
  obtain ⟨image, band, ⟨width, height, _, _⟩⟩ := key
  obtain ⟨image', band', ⟨width', height', _, _⟩⟩ := key'
  obtain rfl := positionalRoot_injective (String.toList_injective hroot)
  obtain rfl := Nat.succ.inj (digits_injective hnumber)
  obtain rfl := digits_injective hwidth
  obtain rfl := digits_injective hheight
  rfl

/-- What is read off the name of a window, if the numbers are not too large to be read, is the
window. -/
theorem eq_of_readWindow?_windowName {key : WindowKey} {n : WindowName}
    (h : readWindow? (windowName key) = some n) :
    n = ⟨positionalRoot key.image, key.band + 1, key.window.width, key.window.height⟩ := by
  obtain ⟨hstem, hsides, hband⟩ := split_windowName key
  simp only [readWindow?, readBand?, hstem, hsides, hband, Option.bind_eq_bind, Option.bind_some,
    Option.bind_eq_some_iff, Option.pure_def, Option.some.injEq] at h
  obtain ⟨b, ⟨band, hnumber, rfl⟩, width, hwidth, height, hheight, rfl⟩ := h
  have hroot : String.ofList (positionalRoot key.image).toList = positionalRoot key.image :=
    String.ofList_toList
  rw [← readSize?_eq_some hnumber, ← readSize?_eq_some hwidth, ← readSize?_eq_some hheight,
    natOfDigits_digits, natOfDigits_digits, natOfDigits_digits]
  simp only [hroot]

/-- No variable that an input comes with has a name that asks for a window. -/
theorem not_mem_root_append {image image' bands : Nat} {e : String × Kind}
    (he : e ∈ endings image bands) : 'N' ∉ (positionalRoot image' ++ e.1).toList := by
  rw [String.toList_append, toList_positionalRoot, List.mem_append]
  rintro (hmem | hmem)
  · simp only [List.mem_cons] at hmem
    rcases hmem with h | h | hmem
    · cases h
    · cases h
    · exact not_mem_digits (by decide) _ hmem
  · exact (toList_of_mem_endings he).2 hmem

/-- No variable that an input comes with has the name of a window. -/
theorem root_append_ne_windowName {image image' bands : Nat} {e : String × Kind}
    (he : e ∈ endings image bands) (key : WindowKey) :
    positionalRoot image' ++ e.1 ≠ windowName key := by
  intro h
  have hroot : 'N' ∉ (positionalRoot image' ++ e.1).toList := not_mem_root_append he
  rw [h, toList_windowName] at hroot
  exact hroot (List.mem_append_right _ List.mem_cons_self)

end Catalog

end MapAlgebra
