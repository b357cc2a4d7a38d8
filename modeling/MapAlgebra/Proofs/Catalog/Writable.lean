import MapAlgebra.Proofs.Catalog.Representation
import MapAlgebra.Proofs.Catalog.Standing
import MapAlgebra.Proofs.Expr.Word

/-!
# Names that can be written

A formula reaches a variable only if its name can be written in a formula. Main statement:
**`Reachable.writable`** says that this is so for every name of a reachable catalog: by itself it is
read as the variable of that name, and it is not reserved.

A catalog makes names of its own by putting endings behind roots, and it does not look them up among
the reserved names. What keeps them apart is `Marked`: an ending that is not empty has a letter or
two that no reserved name has, wherever it stands.
-/

namespace MapAlgebra.Catalog

open Decimal Text MapAlgebra.Expr

variable {c c' : Catalog}

/-! ### Names of variables are not reserved -/

/-- A text has the letter of coordinates, or the letter of bands along with a digit. -/
def Marked (cs : List Char) : Prop := 'P' ∈ cs ∨ 'b' ∈ cs ∧ ∃ d ∈ cs, isDigit d = true

instance (cs : List Char) : Decidable (Marked cs) :=
  decidable_of_iff ('P' ∈ cs ∨ 'b' ∈ cs ∧ cs.any isDigit = true) <| by
    rw [Marked, List.any_eq_true]

theorem Marked.append {cs : List Char} (h : Marked cs) (before after : List Char) :
    Marked (before ++ cs ++ after) := by
  have hmem : ∀ {d}, d ∈ cs → d ∈ before ++ cs ++ after := fun hd =>
    List.mem_append_left _ (List.mem_append_right _ hd)
  rcases h with hP | ⟨hb, d, hd, hdigit⟩
  · exact Or.inl (hmem hP)
  · exact Or.inr ⟨hmem hb, d, hmem hd, hdigit⟩

theorem marked_bandEnding (band : Nat) : Marked (bandEnding band).toList := by
  obtain ⟨d, ds, hdigits⟩ := List.exists_cons_of_ne_nil (digits_ne_nil (band + 1))
  rw [toList_bandEnding]
  refine Or.inr ⟨List.mem_cons_self, d, List.mem_cons_of_mem _ (hdigits ▸ List.mem_cons_self), ?_⟩
  exact isDigit_of_mem_digits (hdigits ▸ List.mem_cons_self)

/-- No reserved name has the letters of an ending, and none begins like a positional root. -/
theorem plain_of_mem_reservedNames : ∀ name ∈ reservedNames,
    ¬Marked name.toList ∧ isPositionalName name = false := by
  decide +kernel

theorem not_reserved_of_marked {name : String} (h : Marked name.toList) : name ∉ reservedNames :=
  fun hmem => (plain_of_mem_reservedNames name hmem).1 h

theorem not_reserved_of_positional {name : String} (h : isPositionalName name = true) :
    name ∉ reservedNames := by
  intro hmem
  rw [(plain_of_mem_reservedNames name hmem).2] at h
  cases h

/-- A name that has been found available is not reserved. -/
theorem not_reserved_of_checkAvailable {name : String} (h : c.checkAvailable name = .ok ()) :
    name ∉ reservedNames := by
  unfold checkAvailable at h
  split at h
  · cases h
  · split at h
    · cases h
    · next hfree =>
      simp only [Bool.or_eq_true, not_or, List.contains_iff_mem] at hfree
      exact hfree.1.2

/-! ### Roots and endings -/

/-- A name can be written: it is one, and it is not reserved. -/
def Writable (name : String) : Prop := isName name = true ∧ name ∉ reservedNames

theorem isName_positionalRoot (image : Nat) : isName (positionalRoot image) = true := by
  refine isName_iff.2 ⟨'i', 'm' :: digits (image + 1), toList_positionalRoot image, by decide,
    List.forall_mem_cons.2 ⟨by decide, fun d hd => ?_⟩⟩
  exact continuesName_of_isDigit (isDigit_of_mem_digits hd)

theorem writable_positionalRoot (image : Nat) : Writable (positionalRoot image) :=
  ⟨isName_positionalRoot image, not_reserved_of_positional (isPositionalName_root image)⟩

/-- A root goes on as a name with the ending of a variable. -/
theorem continuesName_of_mem_endings {image bands : Nat} {e : String × Kind}
    (h : e ∈ endings image bands) : ∀ d ∈ e.1.toList, continuesName d = true := by
  have hband : ∀ band, ∀ d ∈ (bandEnding band).toList, continuesName d = true := by
    intro band d hd
    rw [toList_bandEnding] at hd
    rcases List.mem_cons.1 hd with rfl | hd
    · decide
    · exact continuesName_of_isDigit (isDigit_of_mem_digits hd)
  rcases mem_endings h with rfl | rfl | rfl | ⟨band, -, rfl⟩ | ⟨band, -, s, rfl⟩
  · exact fun d hd => nomatch hd
  · exact List.all_eq_true.1 (show "PhyX".toList.all continuesName = true by decide)
  · exact List.all_eq_true.1 (show "PhyY".toList.all continuesName = true by decide)
  · exact hband band
  · have hsuffix : s.suffix.toList.all continuesName = true := by cases s <;> decide
    intro d hd
    rw [String.toList_append] at hd
    exact (List.mem_append.1 hd).elim (hband band d) (List.all_eq_true.1 hsuffix d)

/-- The ending of a variable is empty or marked. -/
theorem marked_of_mem_endings {image bands : Nat} {e : String × Kind}
    (h : e ∈ endings image bands) : e.1 = "" ∨ Marked e.1.toList := by
  rcases mem_endings h with rfl | rfl | rfl | ⟨band, -, rfl⟩ | ⟨band, -, s, rfl⟩
  · exact Or.inl rfl
  · exact Or.inr (show Marked "PhyX".toList by decide)
  · exact Or.inr (show Marked "PhyY".toList by decide)
  · exact Or.inr (marked_bandEnding band)
  · refine Or.inr ?_
    rw [String.toList_append]
    exact (marked_bandEnding band).append [] _

theorem Writable.append_ending {root : String} (hroot : Writable root) {image bands : Nat}
    {e : String × Kind} (h : e ∈ endings image bands) : Writable (root ++ e.1) := by
  refine ⟨isName_append hroot.1 (continuesName_of_mem_endings h), ?_⟩
  rcases marked_of_mem_endings h with hempty | hmarked
  · rw [hempty, String.append_empty]
    exact hroot.2
  · refine not_reserved_of_marked ?_
    have happend := hmarked.append root.toList []
    rwa [List.append_nil, ← String.toList_append] at happend

/-- A root and the spelling of a window can be written. -/
theorem writable_windowSpelling {root band width height : String} (hroot : isName root = true)
    {nb nw nh : Nat} (hb : Spells band nb) (hw : Spells width nw) (hh : Spells height nh) :
    Writable (root ++ windowSpelling band width height) := by
  have hdigits : ∀ {text n}, Spells text n → ∀ d ∈ text.toList, continuesName d = true :=
    fun h d hd => continuesName_of_isDigit (h.digits d hd)
  have hletter : ∀ letter : String, letter.toList.all continuesName = true →
      ∀ d ∈ letter.toList, continuesName d = true := fun _ h => List.all_eq_true.1 h
  have hspelling : ∀ d ∈ (windowSpelling band width height).toList, continuesName d = true := by
    intro d hd
    simp only [windowSpelling, String.toList_append, List.mem_append] at hd
    rcases hd with ((((hd | hd) | hd) | hd) | hd) | hd
    · exact hletter _ (by decide) d hd
    · exact hdigits hb d hd
    · exact hletter _ (by decide) d hd
    · exact hdigits hw d hd
    · exact hletter _ (by decide) d hd
    · exact hdigits hh d hd
  refine ⟨isName_append hroot hspelling, not_reserved_of_marked ?_⟩
  obtain ⟨d, ds, hband⟩ := List.exists_cons_of_ne_nil hb.nonempty
  have hmarked : Marked ('b' :: band.toList) :=
    Or.inr ⟨List.mem_cons_self, d, hband ▸ List.mem_cons_of_mem _ List.mem_cons_self,
      hb.digits d (hband ▸ List.mem_cons_self)⟩
  rw [toList_windowSpelling]
  exact hmarked.append _ _

/-! ### The invariant -/

/-- All names can be written. -/
def AllWritable (c : Catalog) : Prop := ∀ entry ∈ c.names, Writable entry.1

/-- All roots are names. -/
theorem Accounted.isName_root (h : c.Accounted) {root : String} {image : Nat}
    (hroot : c.roots.lookup root = some image) : isName root = true := by
  rcases h.plain _ (mem_of_lookup hroot) with hpositional | ⟨hname, -⟩
  · obtain rfl : root = positionalRoot image := hpositional
    exact isName_positionalRoot image
  · exact hname

theorem AllWritable.push (h : c.AllWritable) {name : String} (hname : Writable name) (kind : Kind) :
    (c.push name kind).2.AllWritable :=
  List.forall_mem_cons.2 ⟨hname, h⟩

theorem AllWritable.declare (h : c.AllWritable) {name : String}
    (hname : c.checkAvailable name = .ok ()) (kind : Kind) :
    (c.push name kind).2.advance.AllWritable :=
  h.push ⟨(checkAvailable_eq_ok hname).1, not_reserved_of_checkAvailable hname⟩ kind

theorem AllWritable.register (h : c.AllWritable) {source : Source} {alias? : Option String}
    {image : Nat} (hregister : c.register source alias? = .ok (image, c')) : c'.AllWritable := by
  obtain ⟨aliases, -, -, halias, -, rfl⟩ := register_eq_ok hregister
  have hroots : ∀ r ∈ positionalRoot image :: aliases, Writable r := by
    refine List.forall_mem_cons.2 ⟨writable_positionalRoot image, ?_⟩
    rcases checkAlias_eq_ok halias with rfl | ⟨name, rfl, hname⟩
    · exact List.forall_mem_nil _
    · exact List.forall_mem_singleton.2
        ⟨(checkAvailable_eq_ok hname).1, not_reserved_of_checkAvailable hname⟩
  intro entry hentry
  rcases mem_names_addEntries hentry with hold | ⟨r, hr, e, he, heq, -⟩
  · exact h entry hold
  · rw [heq]
    exact (hroots r hr).append_ending he

theorem AllWritable.resolve (h : c.AllWritable) (hc : c.Accounted) {name : String} {slot : Nat}
    (hresolve : c.resolve name = .ok (slot, c')) : c'.AllWritable := by
  cases hname : c.names.lookup name with
  | some slot' =>
    rw [resolve_of_lookup hname] at hresolve
    cases hresolve
    exact h
  | none =>
    obtain ⟨key, hasked, hadd⟩ := addWindow_of_resolve hname hresolve
    obtain rfl : (c.addWindow name key).2 = c' := congrArg Prod.snd hadd
    obtain ⟨n, hn, hroot, hband, hwindow⟩ := asked_eq_ok_iff.1 hasked
    obtain ⟨band, width, height, hsb, hsw, hsh, rfl⟩ := exists_spelling_of_readWindow? hn
    have hnumbers := ofSides_eq_ok hwindow
    rw [(checkBand_eq_ok hband).1] at hsb
    intro entry hentry
    rcases mem_names_addWindow hentry with hold | ⟨heq | heq, -⟩
    · exact h entry hold
    · rw [heq]
      exact writable_windowSpelling (hc.isName_root hroot) hsb hsw hsh
    · rw [heq, windowName_eq]
      exact writable_windowSpelling (isName_positionalRoot _) (spells_toString hsb.lt)
        (spells_toString (hnumbers.1 ▸ hsw.lt)) (spells_toString (hnumbers.2 ▸ hsh.lt))

theorem AllWritable.resolveAll (h : c.AllWritable) (hc : c.WellFormed) (hnames : c.Accounted)
    (names : List String) : (c.resolveAll names).2.AllWritable := by
  induction names generalizing c with
  | nil => exact h
  | cons name rest ih =>
    unfold Catalog.resolveAll
    split
    · next slot mid hresolve =>
      exact ih (h.resolve hnames hresolve) (hc.resolve hresolve).1 (hnames.resolve hc hresolve)
    · exact ih h hc hnames
    · exact h

/-- All names of a reachable catalog can be written. -/
theorem Reachable.allWritable (hc : c.Reachable) : c.AllWritable := by
  induction hc with
  | refl =>
    intro entry hentry
    have hinitial : ∀ entry ∈ initial.names, isName entry.1 = true ∧ entry.1 ∉ reservedNames := by
      decide +kernel
    exact hinitial entry hentry
  | register _ hregister ih => exact ih.register hregister
  | declareConstant _ hdeclare ih =>
    obtain ⟨hname, rfl⟩ := declareConstant_eq_ok_iff.1 hdeclare
    exact ih.declare hname _
  | declareMatrix _ hdeclare ih =>
    obtain ⟨hname, -, -, -, rfl⟩ := declareMatrix_eq_ok_iff.1 hdeclare
    exact ih.declare hname _
  | declareMatrixText _ hdeclare ih =>
    obtain ⟨m, -, hdeclare⟩ := declareMatrixText_eq_ok_iff.1 hdeclare
    obtain ⟨hname, -, -, -, rfl⟩ := declareMatrix_eq_ok_iff.1 hdeclare
    exact ih.declare hname _
  | resolve hbefore hresolve ih => exact ih.resolve (Reachable.accounted hbefore) hresolve
  | @compile c text t hbefore ih =>
    rcases compile_snd c text t with hsame | ⟨names, hresolved⟩
    · rwa [hsame]
    · rw [hresolved]
      exact ih.resolveAll (Reachable.wellFormed hbefore) (Reachable.accounted hbefore) names

/-- **Writable names**: every name of a reachable catalog is one lexeme, by itself it is read as the
variable of that name, and it is not reserved. -/
theorem Reachable.writable {c : Catalog} (hc : c.Reachable) :
    ∀ name ∈ c.names.map (·.1), name ∉ reservedNames ∧
      (∃ ts, tokenize name.toList = .ok ts ∧ ts.map (·.token) = [.name name]) ∧
      ∃ f, Formula.parse name = .ok f ∧ f.source = name ∧ f.tree = .variable name ∧
        f.identifiers = [name] := by
  intro name hmem
  obtain ⟨entry, hentry, rfl⟩ := List.mem_map.1 hmem
  obtain ⟨hname, hfree⟩ := hc.allWritable entry hentry
  refine ⟨hfree, tokenize_name hname (BinaryOp.ofWord?_eq_none hfree), _,
    Formula.parse_name hname hfree, rfl, rfl, ?_⟩
  unfold Formula.identifiers Tree.references
  rfl

/-- The name of a window with leading zeros, once it has been asked for, is read as a variable. -/
theorem parse_aliasedWindow :
    Sample.window.2.Reachable ∧ "ab01N3x01" ∈ Sample.window.2.names.map (·.1) ∧
      ∃ f, Formula.parse "ab01N3x01" = .ok f ∧ f.tree = .variable "ab01N3x01" := by
  have hresolve : Sample.aliased.2.resolve "ab01N3x01" = .ok Sample.window := eq_ok_valueOf _
  have hreachable : Sample.window.2.Reachable := Sample.aliased_reachable.resolve hresolve
  have hmem : "ab01N3x01" ∈ Sample.window.2.names.map (·.1) := by decide +kernel
  obtain ⟨-, -, f, hf, -, htree, -⟩ := hreachable.writable _ hmem
  exact ⟨hreachable, hmem, f, hf, htree⟩

end MapAlgebra.Catalog
