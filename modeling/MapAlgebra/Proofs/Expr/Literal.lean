import MapAlgebra.Proofs.Catalog.MatrixText
import MapAlgebra.Proofs.Expr.Call
import MapAlgebra.Proofs.Expr.Lexeme
import MapAlgebra.Proofs.Expr.Probe
import MapAlgebra.Proofs.Expr.Renaming

/-!
# Matrices as formulas

A matrix can be written as a text of its own and as a part of a formula. Main statement:
**`Formula.parse_matrixText`**. What is read as a matrix text without words for numbers is read as a
formula too, and the formula has the value of that matrix.

Both readers are followed along the slices and the separators after them, in the order in which the
reader of formulas takes them (`Body`).
-/

namespace MapAlgebra

namespace Expr

open Text Decimal Catalog Catalog.MatrixText

/-- A text is cut into given tokens wherever it stands. -/
def CutInto (cs : List Char) (w : List Token) : Prop :=
  ∀ offset, ∃ ts, tokensFrom offset cs = .ok ts ∧ ts.map (·.token) = w

/-- A formula without variables has a number as its value, however it is evaluated. -/
structure Denotes (t : Tree String) (x : Float) : Prop where
  /-- It has no variables. -/
  references : t.references = []
  /-- Its value. -/
  eval : ∀ (σ : String → Nat) branching s, (t.rename σ).eval branching s = .ok (.scalar x)

/-! ### Numbers with a sign -/

/-- How a number with a sign is spelled, cut into tokens and read. -/
inductive Signed : List Char → List Token → Tree String → Float → Prop where
  /-- No sign. -/
  | unsigned {l : List Char} {x : Float} : IsNumeral l → readUnsigned? l = some x →
      Signed l [.number x] (.number x) x
  /-- A plus sign. -/
  | plus {l : List Char} {x : Float} : IsNumeral l → readUnsigned? l = some x →
      Signed ('+' :: l) [.operator .add, .number x] (.number x) x
  /-- A minus sign. -/
  | minus {l : List Char} {x : Float} : IsNumeral l → readUnsigned? l = some x →
      Signed ('-' :: l) [.operator .subtract, .number x] (.unary .negate (.number x)) (-x)

variable {cs l rest : List Char} {w w' : List Token} {t : Tree String} {x : Float}

/-- What is read as a number and is not spelled as a word is a numeral with a sign. -/
theorem signed_of_readSigned? (h : readSigned? cs = some x)
    (hword : ¬IsWord (Numeral.scanSign cs).2) : ∃ w t, Signed cs w t x := by
  obtain ⟨sign, hsign, hcs, hnegative⟩ := Numeral.scanSign_spec cs
  unfold readSigned? at h
  dsimp only at h
  obtain ⟨y, hy, rfl⟩ := Option.map_eq_some_iff.1 h
  have hnumeral := isNumeral_of_readUnsigned? hy hword
  rw [hnegative, hcs]
  simp only [signs, List.mem_cons, List.not_mem_nil, or_false] at hsign
  rcases hsign with rfl | rfl | rfl
  · exact ⟨_, _, .unsigned hnumeral hy⟩
  · exact ⟨_, _, .plus hnumeral hy⟩
  · exact ⟨_, _, .minus hnumeral hy⟩

theorem cutInto_nil : CutInto [] [] := fun offset => ⟨[], by rw [tokensFrom], rfl⟩

theorem cutInto_blanks (hblanks : ∀ c ∈ cs, isBlank c = true) (h : CutInto rest w) :
    CutInto (cs ++ rest) w := by
  induction cs with
  | nil => exact h
  | cons c cs ih =>
    obtain ⟨hc, hblanks⟩ := List.forall_mem_cons.1 hblanks
    exact tokensFrom_blank hc (ih hblanks)

theorem cutInto_numeral (hl : IsNumeral l) (hx : readUnsigned? l = some x)
    (hrest : ∀ d ∈ rest.head?, isNumeralChar d = false) (h : CutInto rest w) :
    CutInto (l ++ rest) (.number x :: w) := by
  obtain ⟨hne, hblank⟩ := (Spells.number hl hx).isBlank
  obtain ⟨c, cs, rfl⟩ := List.exists_cons_of_ne_nil hne
  intro offset
  exact tokensFrom_cons (hblank c List.mem_cons_self) (lexeme?_numeral hl hx hrest) h

theorem lexeme?_plus (cs : List Char) : lexeme? '+' cs = some (.operator .add, cs) := by
  cases cs <;> rfl

/-- A number with a sign is cut into its tokens, before something that is in no numeral. -/
theorem Signed.cutInto (hl : Signed l w t x) (hrest : ∀ d ∈ rest.head?, isNumeralChar d = false)
    (h : CutInto rest w') : CutInto (l ++ rest) (w ++ w') := by
  cases hl with
  | unsigned hnumeral hx => exact cutInto_numeral hnumeral hx hrest h
  | plus hnumeral hx =>
    exact fun offset => tokensFrom_cons (by decide) (lexeme?_plus _)
      (cutInto_numeral hnumeral hx hrest h)
  | minus hnumeral hx =>
    exact fun offset => tokensFrom_cons (by decide) (lexeme?_minus _)
      (cutInto_numeral hnumeral hx hrest h)

/-- Blanks around the number go unnoticed. -/
theorem Signed.cutInto_slice {slice : List Char} {c : Char} (hl : Signed (trim slice) w t x)
    (hc : isNumeralChar c = false) (h : CutInto (c :: rest) w') :
    CutInto (slice ++ c :: rest) (w ++ w') := by
  obtain ⟨after, hslice, hafter⟩ := trim_spec slice
  have hhead : ∀ d ∈ (after ++ c :: rest).head?, isNumeralChar d = false := by
    intro d hd
    cases after with
    | nil =>
      cases hd
      exact hc
    | cons e after =>
      cases hd
      refine Bool.eq_false_iff.2 fun hnumeral => ?_
      have hblank := hafter d List.mem_cons_self
      rw [isBlank_of_isNumeralChar hnumeral] at hblank
      cases hblank
  have hend := hl.cutInto hhead (cutInto_blanks hafter h)
  rw [hslice, List.append_assoc, List.append_assoc]
  exact cutInto_blanks (fun d hd => List.mem_takeWhile_imp hd) hend

theorem Signed.denotes (h : Signed l w t x) : Denotes t x := by
  cases h <;> exact ⟨rfl, fun _ _ _ => rfl⟩

/-! ### Readers of numbers -/

namespace Rung

variable {inner : Rung} {p : Placed} {ts after : List Placed}

theorem prefixed_number (hp : p.token = .number x) (hafter : Closed after) :
    prefixed inner (p :: after) = .ok (.number x) after := by
  refine prefixed_primary ⟨p, rfl, ?_, ?_⟩ ?_ hafter
  · rw [isPlus, hp]
    rfl
  · rw [hp]
    rfl
  · unfold primary
    dsimp only
    rw [hp]

/-- A number with a sign is a formula of its own. -/
theorem formulaOf_signed (h : Signed l w t x) (hts : Splits ts w after) (hafter : Closed after) :
    (formulaOf (above inner)).read ts = .ok t after := by
  refine formulaOf_prefixed ?_ hafter
  cases h with
  | unsigned _ _ =>
    obtain ⟨p, rfl, hp⟩ := splits_singleton_iff.1 hts
    exact prefixed_number hp hafter
  | plus _ _ =>
    obtain ⟨p, tail, rfl, hp, htail⟩ := splits_cons_iff.1 hts
    obtain ⟨q, rfl, hq⟩ := splits_singleton_iff.1 htail
    have hplus : isPlus p = true := by
      rw [isPlus, hp]
      rfl
    unfold prefixed
    rw [List.dropWhile_cons_of_pos hplus]
    exact prefixed_number hq hafter
  | minus _ _ =>
    obtain ⟨p, tail, rfl, hp, htail⟩ := splits_cons_iff.1 hts
    obtain ⟨q, rfl, hq⟩ := splits_singleton_iff.1 htail
    have hplus : isPlus p = false := by
      rw [isPlus, hp]
      rfl
    have hoperand : (above inner).operand.read (q :: after) = .ok (.number _) after :=
      prefixed_number hq hafter
    unfold prefixed
    rw [List.dropWhile_cons_of_neg (by rw [hplus]; exact Bool.false_ne_true)]
    dsimp only
    rw [hp]
    dsimp only [prefixOp?]
    rw [hoperand]
    rfl

end Rung

/-! ### The inside of a matrix -/

/-- How the inside of a matrix and its closing brace are cut into tokens, read as a formula and read
as numbers: a slice, the separator after it, and so on. -/
inductive Body : List Char → List Token → List (List (Tree String)) → List (List Float) → Prop where
  /-- The last slice. -/
  | last {slice : List Char} {w : List Token} {t : Tree String} {x : Float} :
      Signed (trim slice) w t x →
      Body (slice ++ ['}']) (w ++ [.mark .rightBrace]) [[t]] [[x]]
  /-- A slice, and the row goes on. -/
  | comma {slice cs : List Char} {w w' : List Token} {t : Tree String} {x : Float}
      {tss : List (List (Tree String))} {xss : List (List Float)} :
      Signed (trim slice) w t x → Body cs w' tss xss →
      Body (slice ++ ',' :: cs) (w ++ .mark .comma :: w') (consHead t tss) (consHead x xss)
  /-- A slice that ends its row. -/
  | semicolon {slice cs : List Char} {w w' : List Token} {t : Tree String} {x : Float}
      {tss : List (List (Tree String))} {xss : List (List Float)} :
      Signed (trim slice) w t x → Body cs w' tss xss →
      Body (slice ++ ';' :: cs) (w ++ .mark .semicolon :: w') ([t] :: tss) ([x] :: xss)

variable {tss : List (List (Tree String))} {xss : List (List Float)}

theorem Body.cutInto (h : Body cs w tss xss) (hw : CutInto rest w') :
    CutInto (cs ++ rest) (w ++ w') := by
  induction h with
  | last hslice =>
    rw [List.append_assoc, List.append_assoc]
    exact hslice.cutInto_slice (by decide) (tokensFrom_mark (by decide) hw)
  | comma hslice _ ih =>
    rw [List.append_assoc, List.append_assoc]
    exact hslice.cutInto_slice (by decide) (tokensFrom_mark (by decide) ih)
  | semicolon hslice _ ih =>
    rw [List.append_assoc, List.append_assoc]
    exact hslice.cutInto_slice (by decide) (tokensFrom_mark (by decide) ih)

/-- The rows of a matrix are read. -/
theorem Body.read (inner : Rung) {ts after : List Placed} (h : Body cs w tss xss)
    (hts : Splits ts w after) : (Rung.formulaOf (Rung.above inner)).rows ts = .ok tss after := by
  induction h generalizing ts with
  | last hslice =>
    obtain ⟨mid, hts, hmid⟩ := splits_append_iff.1 hts
    obtain ⟨p, rfl, hp⟩ := splits_singleton_iff.1 hmid
    rw [Reader.rows_eq, Rung.formulaOf_signed hslice hts (closed_cons hp (by decide))]
    dsimp only [Outcome.andThen]
    rw [hp]
  | comma hslice _ ih =>
    obtain ⟨mid, hts, hmid⟩ := splits_append_iff.1 hts
    obtain ⟨p, tail, rfl, hp, htail⟩ := splits_cons_iff.1 hmid
    rw [Reader.rows_eq, Rung.formulaOf_signed hslice hts (closed_cons hp (by decide))]
    dsimp only [Outcome.andThen]
    rw [hp, ih htail]
    rfl
  | semicolon hslice _ ih =>
    obtain ⟨mid, hts, hmid⟩ := splits_append_iff.1 hts
    obtain ⟨p, tail, rfl, hp, htail⟩ := splits_cons_iff.1 hmid
    rw [Reader.rows_eq, Rung.formulaOf_signed hslice hts (closed_cons hp (by decide))]
    dsimp only [Outcome.andThen]
    rw [hp, ih htail]
    rfl

/-- The formulas of the rows have the numbers of the rows as their values. -/
theorem Body.denotes (h : Body cs w tss xss) : List.Forall₂ (List.Forall₂ Denotes) tss xss := by
  induction h with
  | last hslice => exact .cons (.cons hslice.denotes .nil) .nil
  | comma hslice _ ih =>
    cases ih with
    | nil => exact .cons (.cons hslice.denotes .nil) .nil
    | cons hrow hrows => exact .cons (.cons hslice.denotes hrow) hrows
  | semicolon hslice _ ih => exact .cons (.cons hslice.denotes .nil) ih

/-- A slice that is a numeral with a sign. -/
def SignedSlice (slice : List Char) (x : Float) : Prop := ∃ w t, Signed (trim slice) w t x

/-- Slices that are read as numbers and are not spelled as words. -/
theorem signedSlices_of_reads {slices : List (List Char)} {xs : List Float}
    (h : List.Forall₂ MatrixText.Reads slices xs)
    (hwords : ∀ slice ∈ slices, ¬IsWord (Numeral.scanSign (trim slice)).2) :
    List.Forall₂ SignedSlice slices xs := by
  induction h with
  | nil => exact .nil
  | cons hread _ ih =>
    obtain ⟨hword, hwords⟩ := List.forall_mem_cons.1 hwords
    exact .cons (signed_of_readSigned? hread hword) (ih hwords)

/-- A row of numbers before something that can follow its last one. -/
theorem exists_body_of_row {row : List (List Char)} {xs : List Float} {tail : List Char}
    (hclose : ∀ {slice w t x}, Signed (trim slice) w t x →
      ∃ w', Body (slice ++ tail) w' ([t] :: tss) ([x] :: xss)) (hne : row ≠ [])
    (hrow : List.Forall₂ SignedSlice row xs) :
    ∃ w ts, Body (rowText row ++ tail) w (ts :: tss) (xs :: xss) := by
  induction hrow with
  | nil => exact absurd rfl hne
  | cons hslice hrow ih =>
    obtain ⟨w, t, hslice⟩ := hslice
    cases hrow with
    | nil =>
      obtain ⟨w', hbody⟩ := hclose hslice
      exact ⟨w', [t], by rwa [rowText, List.intercalate_singleton]⟩
    | cons _ _ =>
      obtain ⟨w', ts, hbody⟩ := ih (List.cons_ne_nil _ _)
      refine ⟨w ++ .mark .comma :: w', t :: ts, ?_⟩
      rw [rowText, List.intercalate_cons_cons, List.append_assoc, List.append_assoc]
      exact .comma hslice hbody

/-- Rows of numbers are the inside of a matrix. -/
theorem exists_body {rows : List (List (List Char))} (hne : rows ≠ [])
    (hrows : ∀ row ∈ rows, row ≠ []) (h : List.Forall₂ (List.Forall₂ SignedSlice) rows xss) :
    ∃ w tss, Body (bodyText rows ++ ['}']) w tss xss := by
  induction h with
  | nil => exact absurd rfl hne
  | cons hrow hlater ih =>
    obtain ⟨hfirst, hrows⟩ := List.forall_mem_cons.1 hrows
    cases hlater with
    | nil =>
      obtain ⟨w, ts, hbody⟩ := exists_body_of_row (fun h => ⟨_, .last h⟩) hfirst hrow
      exact ⟨w, [ts], by rwa [bodyText, List.map_singleton, List.intercalate_singleton]⟩
    | cons _ _ =>
      obtain ⟨w', tss, hbody⟩ := ih (List.cons_ne_nil _ _) hrows
      obtain ⟨w, ts, hbody⟩ := exists_body_of_row (fun h => ⟨_, .semicolon h hbody⟩) hfirst hrow
      refine ⟨w, ts :: tss, ?_⟩
      rw [bodyText, List.map_cons, List.map_cons, List.intercalate_cons_cons, List.append_assoc,
        List.append_assoc]
      exact hbody

/-- The first token is none that closes a matrix. -/
theorem Body.opens (h : Body cs w tss xss) : ∃ t w', w = t :: w' ∧ t ≠ .mark .rightBrace := by
  have first : ∀ {slice : List Char} {w w' : List Token} {t : Tree String} {x : Float},
      Signed slice w t x → ∃ t w'', w ++ w' = t :: w'' ∧ t ≠ .mark .rightBrace := by
    intro slice w w' t x hslice
    cases hslice <;> exact ⟨_, _, rfl, by simp⟩
  cases h with
  | last hslice => exact first hslice
  | comma hslice _ => exact first hslice
  | semicolon hslice _ => exact first hslice

/-! ### Matrices in formulas -/

/-- The formula of a matrix of numbers. -/
theorem Rung.formulaOf_matrix (inner : Rung) {ts after : List Placed} {matrix : Tree String}
    (h : Body cs w tss xss) (hmatrix : matrixOfRows? tss = some matrix)
    (hts : Splits ts (.mark .leftBrace :: w) after) (hafter : Closed after) :
    (formulaOf (above (above inner))).read ts = .ok matrix after := by
  obtain ⟨p, tail, rfl, hp, htail⟩ := splits_cons_iff.1 hts
  have hread := h.read inner htail
  have hnonempty : tail.head?.any (·.token = .mark .rightBrace) = false := by
    obtain ⟨t, w', rfl, ht⟩ := h.opens
    obtain ⟨q, tail', rfl, hq, -⟩ := splits_cons_iff.1 htail
    rw [List.head?_cons, Option.any_some, hq]
    exact decide_eq_false ht
  refine formulaOf_primary ⟨p, rfl, ?_, ?_⟩ ?_ hafter
  · rw [isPlus, hp]
    rfl
  · rw [hp]
    rfl
  · unfold primary
    dsimp only
    rw [hp]
    dsimp only
    unfold Rung.matrix
    rw [hnonempty, if_neg Bool.false_ne_true]
    show ((formulaOf (above inner)).rows tail).andThen _ = _
    rw [hread]
    dsimp only [Outcome.andThen]
    rw [hmatrix]

/-- Rows of formulas whose values make up rows of one length are a matrix. -/
theorem matrixOfRows?_eq {cols : Nat} (h : List.Forall₂ (List.Forall₂ Denotes) tss xss)
    (hne : xss ≠ []) (hcols : ∀ xs ∈ xss, xs.length = cols) :
    Rung.matrixOfRows? tss = some (.matrix tss.length cols tss.flatten) := by
  have hlengths := (forall_length_iff_of_forall₂ h).2 hcols
  have hhead : (tss.headD []).length = cols := by
    cases h with
    | nil => exact absurd rfl hne
    | cons _ _ => exact hlengths _ List.mem_cons_self
  unfold Rung.matrixOfRows?
  dsimp only
  rw [hhead, if_pos]
  simpa using hlengths

/-- Elements that are numbers are evaluated to them. -/
theorem evalElements_of_denotes {ts : List (Tree String)} {xs : List Float}
    (h : List.Forall₂ Denotes ts xs) (σ : String → Nat) (branching : Branching)
    (s : Array Value) : Tree.referencesOfAll ts = [] ∧
      Tree.evalElements branching s (Tree.renameAll σ ts) = .ok xs := by
  induction h with
  | nil => exact ⟨rfl, rfl⟩
  | cons ht _ ih =>
    refine ⟨?_, ?_⟩
    · rw [Tree.referencesOfAll, ht.references, ih.1]
      rfl
    · rw [Tree.renameAll, Tree.evalElements, ht.eval, ih.2]
      rfl

/-- A text that spells a matrix without words is a body of it: as many formulas in as many rows. -/
theorem exists_body_of_spelled {rows : List (List (List Char))} {m : MatrixText}
    (hlayout : Layout cs rows) (hspelled : Spelled rows m)
    (hwords : ∀ slice ∈ rows.flatten, ¬IsWord (Numeral.scanSign (trim slice)).2) :
    ∃ w tss xss, Body (bodyText rows ++ ['}']) w tss xss ∧ xss.flatten = m.values ∧
      Rung.matrixOfRows? tss = some (.matrix m.rows m.cols tss.flatten) := by
  obtain ⟨xss, hxss, hflat⟩ :=
    exists_rows_of_forall₂ (signedSlices_of_reads hspelled.values hwords)
  obtain ⟨w, tss, hbody⟩ := exists_body hlayout.rows_ne hlayout.row_ne hxss
  have hcols := (forall_length_iff_of_forall₂ hxss).1 hspelled.cols_eq
  have hcount : tss.length = m.rows := by
    rw [hbody.denotes.length_eq, ← hxss.length_eq, hspelled.rows_eq]
  have hne : xss ≠ [] := by
    rintro rfl
    exact hlayout.rows_ne (List.forall₂_nil_right_iff.1 hxss)
  refine ⟨w, tss, xss, hbody, hflat, ?_⟩
  rw [matrixOfRows?_eq hbody.denotes hne hcols, hcount]

/-- A text of braces and a body between blanks is cut into their tokens. -/
theorem Body.cutInto_text {text : List Char} (h : Body cs w tss xss)
    (htext : trim text = '{' :: cs) : CutInto text (.mark .leftBrace :: w) := by
  obtain ⟨after, hsplit, hafter⟩ := trim_spec text
  have hend := h.cutInto (cutInto_blanks hafter cutInto_nil)
  rw [List.append_nil, List.append_nil] at hend
  rw [hsplit, htext, List.append_assoc]
  exact cutInto_blanks (fun c hc => List.mem_takeWhile_imp hc) (tokensFrom_mark (by decide) hend)

/-- **Matrix texts as formulas**: a text that is read as a matrix, and in which no element is
spelled as a word, is a formula without variables; the value of the formula is a matrix of the same
shape and the same values. -/
theorem Formula.parse_matrixText {text : String} {m : MatrixText}
    (hparse : MatrixText.parse text = .ok m)
    (hwords : ∀ rows, Layout text.toList rows → ∀ slice ∈ rows.flatten,
      ¬IsWord (Numeral.scanSign (trim slice)).2) :
    ∃ f, Formula.parse text = .ok f ∧ f.identifiers = [] ∧
      ∀ (ε : Type) (ρ : String → Except ε Nat), ∃ p matrix, f.bind ρ = .ok p ∧
        p.evaluate #[] = .ok (.matrix matrix) ∧ matrix.rows = m.rows ∧ matrix.cols = m.cols ∧
        matrix.cells = m.values := by
  obtain ⟨rows, hlayout, hspelled⟩ := parse_eq_ok_iff.1 hparse
  obtain ⟨w, tss, xss, hbody, hflat, hmatrix⟩ :=
    exists_body_of_spelled hlayout hspelled (hwords rows hlayout)
  have hlength := (hspelled.shape hlayout).2.2
  have hformula := parse_of_formula (hbody.cutInto_text hlayout.text 0) fun ts hts =>
    Rung.formulaOf_matrix (.ofLevels (maxDepth - 3)) hbody hmatrix
      (splits_all_iff.2 hts) closed_nil
  have hvalues := evalElements_of_denotes (List.rel_flatten hbody.denotes)
  rw [hflat] at hvalues
  have hreferences : (Tree.matrix m.rows m.cols tss.flatten).references = [] :=
    (hvalues (fun _ => 0) .selected #[]).1
  refine ⟨_, hformula, by rw [identifiers, hreferences]; rfl, fun ε ρ =>
    ⟨⟨(Tree.matrix m.rows m.cols tss.flatten).rename fun _ => 0⟩,
      ⟨m.rows, m.cols, m.values, hlength⟩, ?_, ?_, rfl, rfl, rfl⟩⟩
  · have hnone : ∀ v ∈ (Tree.matrix m.rows m.cols tss.flatten).references, ρ v = .ok 0 := by
      rw [hreferences]
      exact List.forall_mem_nil _
    unfold Formula.bind
    rw [Tree.traverse_eq_rename _ hnone]
  · unfold Program.evaluate
    exact bind_eq_ok_iff.2 ⟨m.values, (hvalues _ _ _).2, bind_eq_ok_iff.2
      ⟨_, ofCells_eq_ok_iff.2 ⟨hlength, rfl⟩, rfl⟩⟩

/-- A matrix with signs, points and exponents between wide blanks, bound where no name has a
slot. -/
theorem Formula.parse_matrixText_sample :
    let text := "\u2003\x7b+5. ,-.5;\u00a01.e5, 7\x7d"
    let ρ : String → Except String Nat := fun name => .error name
    ∃ m f p matrix, MatrixText.parse text = .ok m ∧ Formula.parse text = .ok f ∧
      f.bind ρ = .ok p ∧ p.evaluate #[] = .ok (.matrix matrix) ∧ matrix.rows = 2 ∧
      matrix.cols = 2 ∧ matrix.cells = m.values := by
  intro text ρ
  have hok : (MatrixText.parse text).isOk = true := by decide +kernel
  have hshape : (valueOf _ hok).rows = 2 ∧ (valueOf _ hok).cols = 2 := by decide +kernel +revert
  have hwords : ∀ rows, Layout text.toList rows → ∀ slice ∈ rows.flatten,
      ¬IsWord (Numeral.scanSign (trim slice)).2 := by
    intro rows hlayout
    obtain ⟨inside, htext, rfl⟩ := layout_iff.1 hlayout
    have hbraces : trim text.toList =
        '{' :: ("+5. ,-.5;\u00a01.e5, 7".toList ++ ['}']) := by decide +kernel
    rw [hbraces] at htext
    rw [← List.append_cancel_right (List.cons.inj htext).2]
    decide +kernel
  obtain ⟨f, hf, -, hbind⟩ := Formula.parse_matrixText (eq_ok_valueOf hok) hwords
  obtain ⟨p, matrix, hp, hvalue, hrows, hcols, hcells⟩ := hbind String ρ
  exact ⟨_, f, p, matrix, eq_ok_valueOf hok, hf, hp, hvalue, hrows.trans hshape.1,
    hcols.trans hshape.2, hcells⟩

end Expr

end MapAlgebra
