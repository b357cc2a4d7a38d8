import MapAlgebra.Proofs.Decimal.Numeral
import MapAlgebra.Proofs.Expr.Word

/-!
# Lexemes by their spelling

How tokens are spelled (`Spells`), said without the reader that takes lexemes off a text, and what
it is to be the lexeme at the front of a text: the longest beginning that spells a token
(`IsLexeme`). Main statement: **`lexeme?_eq_some_iff`**, that the reader takes that lexeme, and
takes none only where no beginning spells a token (`not_spells_of_lexeme?`).

What spells a token has one of four shapes, and each shows in the first two characters, by which
the reader chooses (`Spells.shape`). No shape has a blank.
-/

namespace MapAlgebra

namespace Text

theorem isBlank_of_isDigit {c : Char} (h : Decimal.isDigit c = true) : isBlank c = false := by
  have hcodes : ∀ n ∈ blankCodes, n < 48 ∨ 57 < n := by decide
  simp only [Decimal.isDigit, Bool.and_eq_true, decide_eq_true_eq, Char.le_def,
    UInt32.le_iff_toNat_le] at h
  have hle : 48 ≤ c.toNat := h.1
  have hge : c.toNat ≤ 57 := h.2
  refine Bool.eq_false_iff.2 fun hblank => ?_
  have := hcodes c.toNat (List.contains_iff_mem.1 hblank)
  omega

theorem isBlank_of_continuesName {c : Char} (h : continuesName c = true) : isBlank c = false := by
  rw [continuesName, Bool.or_eq_true] at h
  rcases h with h | h
  · exact isBlank_of_startsName h
  · exact isBlank_of_isDigit h

theorem isBlank_of_isNumeralChar {c : Char} (h : Decimal.isNumeralChar c = true) :
    isBlank c = false := by
  rw [Decimal.isNumeralChar, Bool.or_eq_true, List.contains_iff_mem] at h
  rcases h with h | h
  · exact isBlank_of_isDigit h
  · have hall : ['.', 'e', 'E', '+', '-'].all (!isBlank ·) = true := by decide
    rw [← Bool.not_eq_true']
    exact List.all_eq_true.1 hall c h

end Text

namespace Expr

open Text Decimal

/-! ### Spellings -/

/-- How tokens are spelled. -/
inductive Spells : List Char → Token → Prop where
  /-- A numeral spells the number it is read as. -/
  | number {l : List Char} {x : Float} :
      IsNumeral l → readUnsigned? l = some x → Spells l (.number x)
  /-- A name that is no operator spells itself. -/
  | name {name : String} :
      isName name = true → BinaryOp.ofWord? name = none → Spells name.toList (.name name)
  /-- A binary operator is spelled by its symbol. -/
  | operator (op : BinaryOp) : Spells op.symbol.toList (.operator op)
  /-- So is any other mark. -/
  | mark (m : Mark) : Spells m.symbol.toList (.mark m)

/-- The shapes of what spells a token and begins with `c` before `cs`. -/
inductive Shape (c : Char) (cs : List Char) : List Char → Token → Prop where
  /-- A numeral. -/
  | number {l : List Char} {x : Float} : startsNumber c cs = true → IsNumeral l →
      readUnsigned? l = some x → Shape c cs l (.number x)
  /-- A name or an operator that is spelled as a word. -/
  | word {tail : List Char} : startsName c = true → (∀ d ∈ tail, continuesName d = true) →
      Shape c cs (c :: tail) (wordToken (String.ofList (c :: tail)))
  /-- Two marks. -/
  | pair {d : Char} {t : Token} : cs.head? = some d → pairToken? c d = some t → Shape c cs [c, d] t
  /-- One mark. -/
  | single {t : Token} : singleToken? c = some t → Shape c cs [c] t

variable {c : Char} {cs l rest : List Char} {t : Token}

/-- A numeral begins with a digit, or with a point before a digit. -/
theorem startsNumber_of_isNumeral (h : IsNumeral l) (hl : l <+: c :: cs) :
    startsNumber c cs = true := by
  obtain ⟨later, hl⟩ := hl
  obtain ⟨whole, fraction, exponent, rfl, hwhole, hfraction, -, d, hd, hdigit⟩ := h
  unfold startsNumber
  cases whole with
  | cons w whole =>
    obtain rfl : w = c := (List.cons.inj hl).1
    rw [hwhole w List.mem_cons_self, Bool.true_or]
  | nil =>
    cases hfraction with
    | absent => cases hd
    | @present digits hdigits =>
      obtain ⟨rfl, rfl⟩ := List.cons.inj hl
      rcases List.mem_cons.1 hd with rfl | hd
      · exact absurd hdigit (by decide)
      · obtain ⟨e, digits, rfl⟩ := List.exists_cons_of_ne_nil (List.ne_nil_of_mem hd)
        have he : isDigit e = true := hdigits e List.mem_cons_self
        show (isDigit '.' || ('.' == '.' && isDigit e)) = true
        rw [he]
        rfl

theorem shape_of_isName {name : String} (h : isName name = true)
    (hl : name.toList <+: c :: cs) : Shape c cs name.toList (wordToken name) := by
  obtain ⟨d, tail, hname, hstart, hall⟩ := isName_iff.1 h
  rw [hname] at hl
  obtain ⟨rfl, -⟩ := List.cons_prefix_cons.1 hl
  have hshape : Shape d cs (d :: tail) (wordToken (String.ofList (d :: tail))) := .word hstart hall
  rwa [← hname, String.ofList_toList] at hshape

/-- What spells a token has one of four shapes. -/
theorem Spells.shape (h : Spells l t) (hl : l <+: c :: cs) : Shape c cs l t := by
  have single : ∀ {d : Char} {t : Token}, singleToken? d = some t → [d] <+: c :: cs →
      Shape c cs [d] t := by
    intro d t ht hd
    obtain ⟨rfl, -⟩ := List.cons_prefix_cons.1 hd
    exact .single ht
  have pair : ∀ {d e : Char} {t : Token}, pairToken? d e = some t → [d, e] <+: c :: cs →
      Shape c cs [d, e] t := by
    intro d e t ht hd
    obtain ⟨rfl, later, rfl⟩ := List.cons_prefix_cons.1 hd
    exact .pair rfl ht
  have word : ∀ {op : BinaryOp}, wordToken op.symbol = .operator op → isName op.symbol = true →
      op.symbol.toList <+: c :: cs → Shape c cs op.symbol.toList (.operator op) := by
    intro op hop hname hl
    rw [← hop]
    exact shape_of_isName hname hl
  cases h with
  | number hnumeral hx => exact .number (startsNumber_of_isNumeral hnumeral hl) hnumeral hx
  | @name name hname hop =>
    have hshape := shape_of_isName hname hl
    rwa [wordToken, hop] at hshape
  | operator op =>
    cases op with
    | cellDivide | scalarDivide | cellMultiply | scalarMultiply | cellPower | scalarPower =>
      exact word (by decide) (by decide) hl
    | equal | unequal | atMost | atLeast | and | or => exact pair rfl hl
    | _ => exact single rfl hl
  | mark m => cases m <;> exact single rfl hl

/-- What spells a token is not empty and has no blank. -/
theorem Spells.isBlank (h : Spells l t) : l ≠ [] ∧ ∀ d ∈ l, isBlank d = false := by
  have marks : ∀ {l : List Char}, (!l.isEmpty && l.all (!Text.isBlank ·)) = true →
      l ≠ [] ∧ ∀ d ∈ l, Text.isBlank d = false := by
    intro l h
    simpa [List.all_eq_true] using h
  cases h with
  | number hnumeral _ =>
    refine ⟨?_, fun d hd => isBlank_of_isNumeralChar (hnumeral.isNumeralChar d hd)⟩
    obtain ⟨whole, fraction, exponent, rfl, -, -, -, d, hd, -⟩ := hnumeral
    refine List.ne_nil_of_mem (a := d) ?_
    rw [← List.append_assoc]
    exact List.mem_append_left _ hd
  | @name name hname _ =>
    obtain ⟨c, tail, hlist, hstart, hall⟩ := isName_iff.1 hname
    rw [hlist]
    exact ⟨List.cons_ne_nil _ _, List.forall_mem_cons.2 ⟨isBlank_of_startsName hstart,
      fun d hd => isBlank_of_continuesName (hall d hd)⟩⟩
  | operator op => exact marks (by cases op <;> decide)
  | mark m => exact marks (by cases m <;> decide)

/-! ### The choice of the reader -/

theorem pairToken?_of_startsNumber (h : startsNumber c cs = true) (d : Char) :
    pairToken? c d = none := by
  unfold pairToken?
  split <;> first | rfl | exact absurd (show false = true from h) Bool.false_ne_true

theorem startsName_of_startsNumber (h : startsNumber c cs = true) : startsName c = false := by
  refine Bool.eq_false_iff.2 fun hname => ?_
  rw [startsNumber, isDigit_of_startsName hname, Bool.false_or, Bool.and_eq_true,
    beq_iff_eq] at h
  obtain rfl := h.1
  exact absurd hname (by decide)

theorem spells_of_pairToken? {d : Char} (h : pairToken? c d = some t) : Spells [c, d] t := by
  unfold pairToken? at h
  split at h <;> cases h
  · exact .operator .equal
  · exact .operator .unequal
  · exact .operator .atMost
  · exact .operator .atLeast
  · exact .operator .and
  · exact .operator .or

theorem spells_of_singleToken? (h : singleToken? c = some t) : Spells [c] t := by
  unfold singleToken? at h
  split at h <;> cases h
  · exact .operator .add
  · exact .operator .subtract
  · exact .operator .multiply
  · exact .operator .divide
  · exact .operator .power
  · exact .operator .less
  · exact .operator .greater
  · exact .mark .bang
  · exact .mark .question
  · exact .mark .colon
  · exact .mark .comma
  · exact .mark .semicolon
  · exact .mark .leftParen
  · exact .mark .rightParen
  · exact .mark .leftBrace
  · exact .mark .rightBrace

theorem spells_wordToken {name : String} (h : isName name = true) :
    Spells name.toList (wordToken name) := by
  unfold wordToken
  split
  · next op hop =>
    unfold BinaryOp.ofWord? at hop
    have heq := List.find?_some hop
    rw [← beq_iff_eq.1 heq]
    exact .operator op
  · next hop => exact .name h hop

/-- A scan that starts at a digit, or at a point before a digit, takes a numeral. -/
theorem literal_of_startsNumber (h : startsNumber c cs = true) :
    c :: cs = Numeral.literal (c :: cs) ++ (Numeral.scan (c :: cs)).2 ∧
    IsNumeral (Numeral.literal (c :: cs)) ∧
    readUnsigned? (Numeral.literal (c :: cs)) = some (Numeral.scan (c :: cs)).1.value ∧
    ∀ l, l <+: c :: cs → IsNumeral l → l.length ≤ (Numeral.literal (c :: cs)).length := by
  obtain ⟨whole, fraction, exponent, hcs, hwhole, hfraction, hexponent, halone, hwhole',
    hfraction', longest⟩ := Numeral.scan_longest (c :: cs)
  have hdigit : ∃ d ∈ whole ++ fraction, isDigit d = true := by
    rw [startsNumber, Bool.or_eq_true, Bool.and_eq_true, beq_iff_eq] at h
    rcases h with h | ⟨rfl, hpoint⟩
    · have hc : c ∈ whole := by
        rw [← hwhole']
        show c ∈ (c :: cs).takeWhile isDigit
        rw [List.takeWhile_cons_of_pos h]
        exact List.mem_cons_self
      exact ⟨c, List.mem_append_left _ hc, h⟩
    · obtain ⟨d, hd, hdigit⟩ := (Option.any_eq_true _ _).1 hpoint
      obtain ⟨after, rfl⟩ := List.head?_eq_some_iff.1 hd
      have hd : d ∈ fraction.tail := by
        rw [← hfraction']
        show d ∈ (d :: after).takeWhile isDigit
        rw [List.takeWhile_cons_of_pos hdigit]
        exact List.mem_cons_self
      exact ⟨d, List.mem_append_right _ (List.mem_of_mem_tail hd), hdigit⟩
  have hnumeral : IsNumeral (whole ++ (fraction ++ exponent)) :=
    ⟨whole, fraction, exponent, rfl, hwhole, hfraction, hexponent, hdigit⟩
  rw [Numeral.literal_eq hcs]
  refine ⟨hcs, hnumeral, ?_, longest⟩
  rw [readUnsigned?_of_isNumeral hnumeral, halone]

/-- So what is taken for a numeral is a number. -/
theorem lexeme?_of_startsNumber (h : startsNumber c cs = true) : lexeme? c cs =
    some (.number (Numeral.scan (c :: cs)).1.value, (Numeral.scan (c :: cs)).2) := by
  have hpair : cs.head?.bind (pairToken? c) = none :=
    Option.bind_eq_none_iff.2 fun d _ => pairToken?_of_startsNumber h d
  unfold lexeme?
  rw [hpair]
  dsimp only
  rw [if_pos h, (literal_of_startsNumber h).2.2.1]
  rfl

/-! ### The lexeme at the front of a text -/

/-- The lexeme at the front of a text and the token it is: the longest beginning that spells a
token. -/
structure IsLexeme (cs l : List Char) (t : Token) : Prop where
  /-- The text begins with the lexeme. -/
  begins : l <+: cs
  /-- The lexeme spells the token. -/
  spells : Spells l t
  /-- No longer beginning of the text spells a token. -/
  longest : ∀ l' t', l' <+: cs → Spells l' t' → l'.length ≤ l.length

theorem isLexeme_pair {d : Char} (h : pairToken? c d = some t) :
    IsLexeme (c :: d :: cs) [c, d] t where
  begins := ⟨cs, rfl⟩
  spells := spells_of_pairToken? h
  longest l' t' hl' hspells := by
    cases hspells.shape hl' with
    | number hstarts _ _ =>
      rw [pairToken?_of_startsNumber hstarts] at h
      cases h
    | word hstart _ =>
      rw [pairToken?_of_startsName hstart] at h
      cases h
    | pair => exact Nat.le_refl _
    | single => exact Nat.le_succ _

theorem isLexeme_number (h : startsNumber c cs = true) : IsLexeme (c :: cs)
    (Numeral.literal (c :: cs)) (.number (Numeral.scan (c :: cs)).1.value) := by
  obtain ⟨hcs, hnumeral, hx, longest⟩ := literal_of_startsNumber h
  have hspells : Spells _ (.number (Numeral.scan (c :: cs)).1.value) := .number hnumeral hx
  refine ⟨⟨_, hcs.symm⟩, hspells, fun l' t' hl' hspells' => ?_⟩
  cases hspells'.shape hl' with
  | number _ hnumeral' _ => exact longest _ hl' hnumeral'
  | word hstart _ =>
    rw [startsName_of_startsNumber h] at hstart
    cases hstart
  | pair _ hpair =>
    rw [pairToken?_of_startsNumber h] at hpair
    cases hpair
  | single => exact List.length_pos_of_ne_nil hspells.isBlank.1

theorem isLexeme_word (h : startsName c = true) :
    IsLexeme (c :: cs) (c :: cs.takeWhile continuesName)
      (wordToken (String.ofList (c :: cs.takeWhile continuesName))) where
  begins := List.cons_prefix_cons.2 ⟨rfl, List.takeWhile_prefix _⟩
  spells := by
    have hname : isName (String.ofList (c :: cs.takeWhile continuesName)) = true :=
      isName_iff.2 ⟨c, _, String.toList_ofList, h, fun d hd => List.mem_takeWhile_imp hd⟩
    have hspells := spells_wordToken hname
    rwa [String.toList_ofList] at hspells
  longest l' t' hl' hspells := by
    cases hspells.shape hl' with
    | number hstarts _ _ =>
      rw [startsName_of_startsNumber hstarts] at h
      cases h
    | @word tail _ hall =>
      obtain ⟨later, rfl⟩ := (List.cons_prefix_cons.1 hl').2
      rw [List.takeWhile_append_of_pos hall]
      simp only [List.length_cons, List.length_append]
      omega
    | pair _ hpair =>
      rw [pairToken?_of_startsName h] at hpair
      cases hpair
    | single => exact Nat.succ_le_succ (Nat.zero_le _)

/-- Where none of the longer shapes begins, what spells a token is one mark. -/
theorem Spells.single (h : Spells l t) (hl : l <+: c :: cs)
    (hpair : cs.head?.bind (pairToken? c) = none) (hnumber : startsNumber c cs = false)
    (hname : startsName c = false) : l = [c] ∧ singleToken? c = some t := by
  cases h.shape hl with
  | number hstarts _ _ =>
    rw [hnumber] at hstarts
    cases hstarts
  | word hstart _ =>
    rw [hname] at hstart
    cases hstart
  | pair hd ht =>
    rw [hd, Option.bind_some, ht] at hpair
    cases hpair
  | single ht => exact ⟨rfl, ht⟩

/-- What the reader takes is the lexeme at the front. -/
theorem isLexeme_of_lexeme? (h : lexeme? c cs = some (t, rest)) :
    ∃ l, c :: cs = l ++ rest ∧ IsLexeme (c :: cs) l t := by
  by_cases hnumber : startsNumber c cs = true
  · rw [lexeme?_of_startsNumber hnumber] at h
    cases h
    exact ⟨_, (literal_of_startsNumber hnumber).1, isLexeme_number hnumber⟩
  · unfold lexeme? at h
    split at h
    · next hpair =>
      cases h
      obtain ⟨d, hd, hpair⟩ := Option.bind_eq_some_iff.1 hpair
      obtain ⟨after, rfl⟩ := List.head?_eq_some_iff.1 hd
      exact ⟨[c, d], rfl, isLexeme_pair hpair⟩
    · next hpair =>
      rw [if_neg hnumber] at h
      split at h
      · next hname =>
        cases h
        refine ⟨c :: cs.takeWhile continuesName, ?_, isLexeme_word hname⟩
        rw [List.cons_append, List.takeWhile_append_dropWhile]
      · next hname =>
        obtain ⟨t', ht, heq⟩ := Option.map_eq_some_iff.1 h
        cases heq
        refine ⟨[c], rfl, ⟨cs, rfl⟩, spells_of_singleToken? ht, fun l' t' hl' hspells => ?_⟩
        rw [(hspells.single hl' hpair (Bool.eq_false_iff.2 hnumber)
          (Bool.eq_false_iff.2 hname)).1]

/-- Nothing that starts like a numeral is refused. -/
theorem startsNumber_of_lexeme? (h : lexeme? c cs = none) : startsNumber c cs = false := by
  refine Bool.eq_false_iff.2 fun hnumber => ?_
  rw [lexeme?_of_startsNumber hnumber] at h
  cases h

/-- The reader takes nothing only where nothing spells a token. -/
theorem not_spells_of_lexeme? (h : lexeme? c cs = none) (hl : l <+: c :: cs) : ¬Spells l t := by
  intro hspells
  have hnumber := startsNumber_of_lexeme? h
  unfold lexeme? at h
  split at h
  · cases h
  · next hpair =>
    rw [hnumber, if_neg Bool.false_ne_true] at h
    split at h
    · cases h
    · next hname =>
      rw [(hspells.single hl hpair hnumber (Bool.eq_false_iff.2 hname)).2] at h
      cases h

/-- What spells a token is read as that token and no other. -/
theorem lexeme?_of_spells (h : Spells (c :: cs) t) : lexeme? c cs = some (t, []) := by
  cases h.shape List.prefix_rfl with
  | number hstarts hnumeral hx =>
    rw [readUnsigned?_of_isNumeral hnumeral] at hx
    rw [lexeme?_of_startsNumber hstarts, Numeral.scan_of_isNumeral hnumeral, Option.some.inj hx]
  | word hstart hall =>
    have hread := lexeme?_name hstart hall fun _ hd => nomatch (hd : _ ∈ ([] : List Char).head?)
    rwa [List.append_nil] at hread
  | pair _ ht =>
    unfold lexeme?
    rw [List.head?_cons, Option.bind_some, ht]
    rfl
  | single ht =>
    unfold singleToken? at ht
    split at ht <;> cases ht <;> rfl

theorem Spells.unique {t' : Token} (h : Spells l t) (h' : Spells l t') : t = t' := by
  obtain ⟨c, cs, rfl⟩ := List.exists_cons_of_ne_nil h.isBlank.1
  have hsame := lexeme?_of_spells h
  rw [lexeme?_of_spells h'] at hsame
  exact (congrArg Prod.fst (Option.some.inj hsame)).symm

/-- A text has at most one lexeme at its front. -/
theorem IsLexeme.unique {l' : List Char} {t' : Token} (h : IsLexeme cs l t)
    (h' : IsLexeme cs l' t') : l = l' ∧ t = t' := by
  have hlength : l.length = l'.length :=
    Nat.le_antisymm (h'.longest l t h.begins h.spells) (h.longest l' t' h'.begins h'.spells)
  obtain rfl : l = l' := (List.prefix_of_prefix_length_le h.begins h'.begins
    (Nat.le_of_eq hlength)).eq_of_length hlength
  exact ⟨rfl, h.spells.unique h'.spells⟩

/-- **Longest lexemes**: the reader takes the lexeme at the front of a text. -/
theorem lexeme?_eq_some_iff : lexeme? c cs = some (t, rest) ↔
    ∃ l, c :: cs = l ++ rest ∧ IsLexeme (c :: cs) l t := by
  refine ⟨isLexeme_of_lexeme?, ?_⟩
  rintro ⟨l, hcs, hlexeme⟩
  cases hread : lexeme? c cs with
  | none => exact absurd hlexeme.spells (not_spells_of_lexeme? hread hlexeme.begins)
  | some p =>
    obtain ⟨t', rest'⟩ := p
    obtain ⟨l', hcs', hlexeme'⟩ := isLexeme_of_lexeme? hread
    obtain ⟨rfl, rfl⟩ := hlexeme.unique hlexeme'
    rw [List.append_cancel_left (hcs.symm.trans hcs')]

/-- The beginnings of a text that do not have a character end before it. -/
theorem begins_of_not_mem {before after : List Char} {d : Char} (hl : l <+: before ++ d :: after)
    (hd : d ∉ l) : l <+: before := by
  have hlong : before ++ [d] <+: before ++ d :: after :=
    (List.prefix_append_right_inj before).2 (List.cons_prefix_cons.2 ⟨rfl, List.nil_prefix⟩)
  rcases List.prefix_or_prefix_of_prefix hl hlong with h | h
  · rcases List.prefix_concat_iff.1 h with rfl | h
    · exact absurd (List.mem_append_right _ List.mem_cons_self) hd
    · exact h
  · exact absurd (h.subset (List.mem_append_right _ List.mem_cons_self)) hd

/-- Up to the first blank after it, a text decides on its first lexeme. -/
theorem IsLexeme.of_blank {before after after' : List Char} (h : IsLexeme (before ++ after) l t)
    (hl : l <+: before) {d : Char} (hd : isBlank d = true) :
    IsLexeme (before ++ d :: after') l t where
  begins := hl.trans (List.prefix_append _ _)
  spells := h.spells
  longest l' t' hl' hspells := by
    have hnot : d ∉ l' := fun hmem => by
      rw [hspells.isBlank.2 d hmem] at hd
      cases hd
    exact h.longest l' t' ((begins_of_not_mem hl' hnot).trans (List.prefix_append _ _)) hspells

/-- A numeral is the first lexeme of a text if what follows it is in no numeral. -/
theorem lexeme?_numeral {x : Float} (h : IsNumeral (c :: cs))
    (hx : readUnsigned? (c :: cs) = some x) (hrest : ∀ d ∈ rest.head?, isNumeralChar d = false) :
    lexeme? c (cs ++ rest) = some (.number x, rest) := by
  refine lexeme?_eq_some_iff.2 ⟨c :: cs, rfl, List.prefix_append (c :: cs) rest, .number h hx,
    fun l' t' hl' hspells => ?_⟩
  have hstarts := startsNumber_of_isNumeral h (List.prefix_append (c :: cs) rest)
  cases hspells.shape hl' with
  | number _ hnumeral _ =>
    cases rest with
    | nil =>
      rw [List.append_nil] at hl'
      exact hl'.length_le
    | cons d rest =>
      have hnot : d ∉ l' := fun hmem => by
        have hchar := hnumeral.isNumeralChar d hmem
        rw [hrest d rfl] at hchar
        cases hchar
      have hkeep : l' <+: c :: cs := begins_of_not_mem hl' hnot
      exact hkeep.length_le
  | word hstart _ =>
    rw [startsName_of_startsNumber hstarts] at hstart
    cases hstart
  | pair _ hpair =>
    rw [pairToken?_of_startsNumber hstarts] at hpair
    cases hpair
  | single => exact Nat.succ_le_succ (Nat.zero_le _)

end Expr

end MapAlgebra
