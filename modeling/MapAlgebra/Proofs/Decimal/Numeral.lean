import MapAlgebra.Decimal.Numeral
import MapAlgebra.Proofs.Result
import Mathlib.Data.List.TakeWhile

/-!
# Numerals as a language

The texts that are numerals (`IsNumeral`), said without the reader that scans them. Main statements:
**`Numeral.scan_longest`**, that a scan takes the longest numeral at the front of a text, and
**`isNumeral_of_readUnsigned?`**, that a whole text read as a number is a numeral or a word.

A numeral is digits, a point with digits and an exponent, of which any may be missing. A scan takes
the parts one after the other, each as far as it goes. A numeral that ends a part earlier can only
be followed by a digit or a point, with which no later part begins, so it ends there altogether.
-/

namespace MapAlgebra.Decimal

/-- Digits, or nothing. -/
def IsDigits (cs : List Char) : Prop := ∀ c ∈ cs, isDigit c = true

/-- A point and the digits after it, or nothing. -/
inductive IsFraction : List Char → Prop where
  /-- No point. -/
  | absent : IsFraction []
  /-- A point; digits need not follow. -/
  | present {digits : List Char} : IsDigits digits → IsFraction ('.' :: digits)

/-- The signs of an exponent. -/
def signs : List (List Char) := [[], ['+'], ['-']]

/-- A letter, a sign and digits, or nothing. -/
inductive IsExponent : List Char → Prop where
  /-- No exponent. -/
  | absent : IsExponent []
  /-- The letter may be small or capital, and the sign may be missing. -/
  | present {letter : Char} {sign digits : List Char} : letter ∈ ['e', 'E'] → sign ∈ signs →
      digits ≠ [] → IsDigits digits → IsExponent (letter :: (sign ++ digits))

/-- Digits with an optional point and an optional exponent; there is a digit before the point or
after it. -/
def IsNumeral (cs : List Char) : Prop :=
  ∃ whole fraction exponent, cs = whole ++ (fraction ++ exponent) ∧ IsDigits whole ∧
    IsFraction fraction ∧ IsExponent exponent ∧ ∃ c ∈ whole ++ fraction, isDigit c = true

/-! ### How parts begin -/

theorem IsExponent.head {exponent : List Char} (h : IsExponent exponent) :
    ∀ c ∈ exponent.head?, c ∈ ['e', 'E'] := by
  intro c hc
  cases h with
  | absent => cases hc
  | present hletter _ _ _ =>
    cases hc
    exact hletter

theorem isDigit_of_letter {c : Char} (h : c ∈ ['e', 'E']) : isDigit c = false := by
  simp only [List.mem_cons, List.not_mem_nil, or_false] at h
  rcases h with rfl | rfl <;> decide

/-- What begins with a digit or a point is no exponent. -/
theorem IsExponent.eq_nil {exponent later : List Char} (h : IsExponent exponent)
    (hd : ∃ d ∈ (exponent ++ later).head?, isDigit d = true ∨ d = '.') : exponent = [] := by
  cases h with
  | absent => rfl
  | present hletter _ _ _ =>
    obtain ⟨d, hd, hkind⟩ := hd
    cases hd
    rcases hkind with hdigit | rfl
    · rw [isDigit_of_letter hletter] at hdigit
      cases hdigit
    · exact absurd hletter (by decide)

/-! ### Runs of digits -/

/-- Digits at the front of a text are all of them, or another one follows. -/
theorem digits_or {digits : List Char} (hdigits : IsDigits digits) (later : List Char) :
    (digits = (digits ++ later).takeWhile isDigit ∧ later = (digits ++ later).dropWhile isDigit) ∨
      digits.length ≤ ((digits ++ later).takeWhile isDigit).length ∧
        ∃ d ∈ later.head?, isDigit d = true := by
  by_cases hlater : ∃ d ∈ later.head?, isDigit d = true
  · refine Or.inr ⟨?_, hlater⟩
    rw [List.takeWhile_append_of_pos hdigits, List.length_append]
    exact Nat.le_add_right _ _
  · have hnone : ∀ c ∈ later.head?, isDigit c = false := fun c hc =>
      Bool.eq_false_iff.2 fun hdigit => hlater ⟨c, hc, hdigit⟩
    obtain ⟨htake, hdrop⟩ := takeWhile_run hdigits hnone
    exact Or.inl ⟨htake.symm, hdrop.symm⟩

theorem head?_dropWhile_digits (cs : List Char) :
    ∀ c ∈ (cs.dropWhile isDigit).head?, isDigit c = false := by
  intro c hc
  have hnot := List.head?_dropWhile_not isDigit cs
  rw [hc] at hnot
  exact hnot

namespace Numeral

/-! ### Taking the parts -/

/-- A scan takes the longest fraction. A shorter one is followed by a digit or a point. -/
theorem scanFraction_spec (cs : List Char) : ∃ fraction, cs = fraction ++ (scanFraction cs).2 ∧
    IsFraction fraction ∧ (scanFraction cs).1 = fraction.tail ∧
    ∀ part later, IsFraction part → cs = part ++ later →
      (part = fraction ∧ later = (scanFraction cs).2) ∨
        part.length ≤ fraction.length ∧ ∃ d ∈ later.head?, isDigit d = true ∨ d = '.' := by
  by_cases hpoint : ∃ after, cs = '.' :: after
  · obtain ⟨after, rfl⟩ := hpoint
    refine ⟨'.' :: after.takeWhile isDigit, ?_, .present fun c hc => List.mem_takeWhile_imp hc, rfl,
      fun part later hpart h => ?_⟩
    · show '.' :: after = '.' :: (after.takeWhile isDigit ++ after.dropWhile isDigit)
      rw [List.takeWhile_append_dropWhile]
    · cases hpart with
      | absent => exact Or.inr ⟨Nat.zero_le _, '.', by rw [← List.nil_append later, ← h]; rfl,
          Or.inr rfl⟩
      | @present digits hdigits =>
        obtain rfl : after = digits ++ later := (List.cons.inj h).2
        rcases digits_or hdigits later with ⟨heq, hrest⟩ | ⟨hle, d, hd, hdigit⟩
        · exact Or.inl ⟨congrArg _ heq, hrest⟩
        · exact Or.inr ⟨Nat.succ_le_succ hle, d, hd, Or.inl hdigit⟩
  · have hnone : scanFraction cs = ([], cs) := by
      unfold scanFraction
      split
      · next after => exact absurd ⟨after, rfl⟩ hpoint
      · rfl
    rw [hnone]
    refine ⟨[], rfl, .absent, rfl, fun part later hpart h => ?_⟩
    cases hpart with
    | absent => exact Or.inl ⟨rfl, h.symm⟩
    | present _ => exact absurd ⟨_, h⟩ hpoint

/-- A fraction by itself is taken whole, before something that is neither digit nor point. -/
theorem scanFraction_append {fraction rest : List Char} (h : IsFraction fraction)
    (hrest : ∀ c ∈ rest.head?, isDigit c = false ∧ c ≠ '.') :
    scanFraction (fraction ++ rest) = (fraction.tail, rest) := by
  cases h with
  | absent =>
    show scanFraction rest = ([], rest)
    unfold scanFraction
    split
    · next after => exact absurd rfl (hrest '.' rfl).2
    · rfl
  | @present digits hdigits =>
    obtain ⟨htake, hdrop⟩ := takeWhile_run hdigits fun c hc => (hrest c hc).1
    show ((digits ++ rest).takeWhile isDigit, (digits ++ rest).dropWhile isDigit) = (digits, rest)
    rw [htake, hdrop]

/-- A sign before digits is taken. -/
theorem scanSign_append {sign digits : List Char} (hsign : sign ∈ signs)
    (hdigits : ∃ d ∈ digits.head?, isDigit d = true) :
    scanSign (sign ++ digits) = (decide (sign = ['-']), digits) := by
  simp only [signs, List.mem_cons, List.not_mem_nil, or_false] at hsign
  rcases hsign with rfl | rfl | rfl
  · obtain ⟨d, hd, hdigit⟩ := hdigits
    obtain ⟨after, rfl⟩ : ∃ after, digits = d :: after := List.head?_eq_some_iff.1 hd
    show scanSign (d :: after) = (false, d :: after)
    unfold scanSign
    split
    · next heq =>
      cases heq
      exact absurd hdigit (by decide)
    · next heq =>
      cases heq
      exact absurd hdigit (by decide)
    · rfl
  · rfl
  · rfl

theorem scanSign_spec (cs : List Char) : ∃ sign ∈ signs, cs = sign ++ (scanSign cs).2 ∧
    (scanSign cs).1 = decide (sign = ['-']) := by
  unfold scanSign
  split
  · exact ⟨['+'], by decide, rfl, rfl⟩
  · exact ⟨['-'], by decide, rfl, rfl⟩
  · exact ⟨[], by decide, rfl, rfl⟩

/-- What an exponent says is taken off the front of a text, if digits follow its sign. -/
theorem scanExponent_append {letter : Char} {sign digits : List Char}
    (hletter : letter ∈ ['e', 'E']) (hsign : sign ∈ signs) (hne : digits ≠ [])
    (hdigits : IsDigits digits) {rest : List Char}
    (hrest : ∀ c ∈ rest.head?, isDigit c = false) :
    scanExponent (letter :: (sign ++ (digits ++ rest))) =
      (if sign = ['-'] then -(natOfDigits digits : Int) else natOfDigits digits, rest) := by
  obtain ⟨d, tail, rfl⟩ := List.exists_cons_of_ne_nil hne
  have hdigit : isDigit d = true := hdigits d List.mem_cons_self
  obtain ⟨htake, hdrop⟩ := takeWhile_run hdigits hrest
  have hmark : (letter = 'e' || letter = 'E') = true := by
    simpa using hletter
  unfold scanExponent
  dsimp only
  rw [scanSign_append hsign ⟨d, rfl, hdigit⟩]
  dsimp only
  rw [htake, hdrop, hmark, List.cons_append, List.head?_cons, Option.any_some, hdigit]
  simp

/-- A text begins with a letter, a sign and a digit. -/
def BeginsExponent (cs : List Char) : Prop :=
  ∃ letter ∈ ['e', 'E'], ∃ sign ∈ signs, ∃ digits,
    cs = letter :: (sign ++ digits) ∧ ∃ d ∈ digits.head?, isDigit d = true

theorem scanExponent_of_not_begins {cs : List Char} (h : ¬BeginsExponent cs) :
    scanExponent cs = (0, cs) := by
  unfold scanExponent
  split
  · rfl
  · next c after =>
    dsimp only
    refine if_neg fun hcond => h ?_
    rw [Bool.and_eq_true] at hcond
    obtain ⟨sign, hsign, hafter, -⟩ := scanSign_spec after
    refine ⟨c, by simpa using hcond.1, sign, hsign, (scanSign after).2, ?_,
      (Option.any_eq_true _ _).1 hcond.2⟩
    rw [← hafter]

/-- An exponent is missing where none begins. -/
theorem eq_nil_of_not_begins {cs part later : List Char} (h : ¬BeginsExponent cs)
    (hpart : IsExponent part) (hcs : cs = part ++ later) : part = [] := by
  cases hpart with
  | absent => rfl
  | @present letter sign digits hletter hsign hne hdigits =>
    obtain ⟨d, tail, rfl⟩ := List.exists_cons_of_ne_nil hne
    refine absurd ⟨letter, hletter, sign, hsign, d :: tail ++ later, ?_, d, rfl,
      hdigits d List.mem_cons_self⟩ h
    rw [hcs, List.cons_append, List.append_assoc]

/-- No exponent at the front of a text goes on behind its digits. -/
theorem length_le_of_begins {letter : Char} {sign digits part later : List Char}
    (hsign : sign ∈ signs) (hhead : ∃ d ∈ digits.head?, isDigit d = true)
    (hpart : IsExponent part) (hcs : letter :: (sign ++ digits) = part ++ later) :
    part.length ≤ (letter :: (sign ++ digits.takeWhile isDigit)).length := by
  cases hpart with
  | absent => exact Nat.zero_le _
  | @present letter' sign' digits' _ hsign' hne' hdigits' =>
    -- the sign is read off the same text, so both exponents have the same
    obtain ⟨d, tail, rfl⟩ := List.exists_cons_of_ne_nil hne'
    have htext : sign ++ digits = sign' ++ (d :: tail ++ later) := by
      rw [← List.append_assoc]
      exact (List.cons.inj hcs).2
    have hrest : digits = d :: tail ++ later := by
      have hsame := scanSign_append hsign hhead
      rw [htext, scanSign_append hsign' ⟨d, rfl, hdigits' d List.mem_cons_self⟩] at hsame
      exact (congrArg Prod.snd hsame).symm
    obtain rfl : sign = sign' := List.append_cancel_right (htext.trans (by rw [hrest]))
    have hle : (d :: tail).length ≤ (digits.takeWhile isDigit).length := by
      rw [hrest]
      rcases digits_or hdigits' later with ⟨heq, -⟩ | ⟨hle, -⟩
      · rw [← heq]
      · exact hle
    simp only [List.length_cons, List.length_append] at hle ⊢
    omega

/-- A scan takes the longest exponent, and reads that alone as it reads it at the front of a
text. -/
theorem scanExponent_spec (cs : List Char) : ∃ exponent, cs = exponent ++ (scanExponent cs).2 ∧
    IsExponent exponent ∧ scanExponent exponent = ((scanExponent cs).1, []) ∧
    ∀ part later, IsExponent part → cs = part ++ later → part.length ≤ exponent.length := by
  by_cases hbegins : BeginsExponent cs
  · obtain ⟨letter, hletter, sign, hsign, digits, rfl, hhead⟩ := hbegins
    have hrun : IsDigits (digits.takeWhile isDigit) := fun c hc => List.mem_takeWhile_imp hc
    have hne : digits.takeWhile isDigit ≠ [] := by
      obtain ⟨d, hd, hdigit⟩ := hhead
      obtain ⟨tail, rfl⟩ := List.head?_eq_some_iff.1 hd
      rw [List.takeWhile_cons_of_pos hdigit]
      exact List.cons_ne_nil _ _
    have hscan := scanExponent_append hletter hsign hne hrun (head?_dropWhile_digits digits)
    have hnothing : ∀ c ∈ ([] : List Char).head?, isDigit c = false := fun _ hc => nomatch hc
    have halone := scanExponent_append hletter hsign hne hrun hnothing
    rw [List.takeWhile_append_dropWhile] at hscan
    rw [List.append_nil] at halone
    refine ⟨letter :: (sign ++ digits.takeWhile isDigit), ?_, .present hletter hsign hne hrun,
      ?_, fun part later hpart h => length_le_of_begins hsign hhead hpart h⟩
    · rw [hscan, List.cons_append, List.append_assoc, List.takeWhile_append_dropWhile]
    · rw [hscan, halone]
  · rw [scanExponent_of_not_begins hbegins]
    exact ⟨[], rfl, .absent, rfl, fun part later hpart h =>
      Nat.le_of_eq (congrArg _ (eq_nil_of_not_begins hbegins hpart h))⟩

/-! ### Taking the whole numeral -/

/-- A scan takes a numeral apart into its digits, its fraction and its exponent. -/
theorem scan_append {whole fraction exponent : List Char} (hwhole : IsDigits whole)
    (hfraction : IsFraction fraction) (hexponent : IsExponent exponent) :
    scan (whole ++ (fraction ++ exponent)) =
      (⟨whole, fraction.tail, (scanExponent exponent).1⟩, (scanExponent exponent).2) := by
  have hexponent' : ∀ c ∈ exponent.head?, isDigit c = false ∧ c ≠ '.' := by
    intro c hc
    refine ⟨isDigit_of_letter (hexponent.head c hc), ?_⟩
    rintro rfl
    exact absurd (hexponent.head '.' hc) (by decide)
  have hrest : ∀ c ∈ (fraction ++ exponent).head?, isDigit c = false := by
    intro c hc
    rw [List.head?_append] at hc
    cases hfraction with
    | absent => exact (hexponent' c hc).1
    | present _ =>
      cases hc
      rfl
  obtain ⟨htake, hdrop⟩ := takeWhile_run hwhole hrest
  unfold scan
  rw [htake, hdrop, scanFraction_append hfraction hexponent']

/-- **Longest numerals**: a scan takes digits, a fraction and an exponent off the front of a text,
and reads them alone as it reads them there; no numeral at the front is longer. -/
theorem scan_longest (cs : List Char) : ∃ whole fraction exponent,
    cs = whole ++ (fraction ++ exponent) ++ (scan cs).2 ∧ IsDigits whole ∧ IsFraction fraction ∧
    IsExponent exponent ∧ scan (whole ++ (fraction ++ exponent)) = ((scan cs).1, []) ∧
    (scan cs).1.whole = whole ∧ (scan cs).1.fraction = fraction.tail ∧
    ∀ l, l <+: cs → IsNumeral l → l.length ≤ (whole ++ (fraction ++ exponent)).length := by
  obtain ⟨fraction, hfraction, isFraction, hdigits, longestFraction⟩ :=
    scanFraction_spec (cs.dropWhile isDigit)
  obtain ⟨exponent, hexponent, isExponent, halone, longestExponent⟩ :=
    scanExponent_spec (scanFraction (cs.dropWhile isDigit)).2
  have hwhole : IsDigits (cs.takeWhile isDigit) := fun c hc => List.mem_takeWhile_imp hc
  have hscan : scan cs = (⟨cs.takeWhile isDigit, fraction.tail, (scanExponent exponent).1⟩,
      (scanExponent (scanFraction (cs.dropWhile isDigit)).2).2) := by
    rw [halone, ← hdigits]
    rfl
  have hcs : cs = cs.takeWhile isDigit ++ (fraction ++ exponent) ++ (scan cs).2 := by
    calc cs = cs.takeWhile isDigit ++ cs.dropWhile isDigit :=
          (List.takeWhile_append_dropWhile).symm
      _ = cs.takeWhile isDigit ++ (fraction ++ (exponent ++ (scan cs).2)) := by
          rw [hscan, ← hexponent, ← hfraction]
      _ = _ := by rw [List.append_assoc, List.append_assoc]
  refine ⟨cs.takeWhile isDigit, fraction, exponent, hcs, hwhole, isFraction, isExponent, ?_,
    congrArg (·.1.whole) hscan, congrArg (·.1.fraction) hscan, ?_⟩
  · rw [scan_append hwhole isFraction isExponent, hscan, halone]
  · rintro l ⟨later, hl⟩ ⟨whole', fraction', exponent', rfl, hwhole', hfraction', hexponent', -⟩
    have htext : cs = whole' ++ (fraction' ++ (exponent' ++ later)) := by
      rw [← hl, List.append_assoc, List.append_assoc]
    -- a part that ends early is followed by what no later part begins with
    have hdigits' := digits_or hwhole' (fraction' ++ (exponent' ++ later))
    rw [← htext] at hdigits'
    simp only [List.length_append]
    rcases hdigits' with ⟨rfl, hrest⟩ | ⟨hle, d, hd, hdigit⟩
    · rcases longestFraction fraction' (exponent' ++ later) hfraction' hrest.symm with
        ⟨rfl, hrest⟩ | ⟨hle, hd⟩
      · have hle := longestExponent exponent' later hexponent' hrest.symm
        omega
      · rw [hexponent'.eq_nil hd, List.length_nil]
        omega
    · have hfraction'' : fraction' = [] := by
        cases hfraction' with
        | absent => rfl
        | present _ =>
          cases hd
          exact absurd hdigit (by decide)
      subst hfraction''
      rw [hexponent'.eq_nil ⟨d, hd, Or.inl hdigit⟩, List.length_nil]
      omega

/-- What is taken off the front of a text is what comes before the rest. -/
theorem literal_eq {cs l : List Char} (h : cs = l ++ (scan cs).2) : literal cs = l := by
  have hlength := congrArg List.length h
  rw [List.length_append] at hlength
  have htake : cs.take l.length = l := by
    rw [h, List.take_left]
  rw [literal, hlength, Nat.add_sub_cancel, htake]

/-- Nothing is left of a numeral. -/
theorem scan_of_isNumeral {l : List Char} (h : IsNumeral l) : scan l = ((scan l).1, []) := by
  obtain ⟨whole, fraction, exponent, hl, -, -, -, halone, -, -, longest⟩ := scan_longest l
  have hle := longest l List.prefix_rfl h
  have hnil : (scan l).2 = [] := by
    have hlength := congrArg List.length hl
    rw [List.length_append] at hlength
    exact List.eq_nil_of_length_eq_zero (by omega)
  rw [← hnil]

end Numeral

/-! ### Words -/

/-- A word for an infinity or for what is no number, in any case. -/
def IsWord (cs : List Char) : Prop := cs.map lowerCase ∈ nanWord :: infinityWords

instance (cs : List Char) : Decidable (IsWord cs) :=
  inferInstanceAs (Decidable (cs.map lowerCase ∈ nanWord :: infinityWords))

theorem lowerCase_of_isDigit {c : Char} (h : isDigit c = true) : lowerCase c = c := by
  refine if_neg fun hcapital => ?_
  simp only [isDigit, Bool.and_eq_true, decide_eq_true_eq, Char.le_def, UInt32.le_iff_toNat_le]
    at h hcapital
  have hdigit : c.val.toNat ≤ 57 := h.2
  have hletter : 65 ≤ c.val.toNat := hcapital.1
  omega

/-- A numeral has a digit, and no word has one. -/
theorem IsNumeral.not_isWord {cs : List Char} (h : IsNumeral cs) : ¬IsWord cs := by
  intro hword
  obtain ⟨whole, fraction, exponent, rfl, -, -, -, c, hc, hdigit⟩ := h
  have hmem : c ∈ (whole ++ (fraction ++ exponent)).map lowerCase := by
    refine List.mem_map.2 ⟨c, ?_, lowerCase_of_isDigit hdigit⟩
    rw [← List.append_assoc]
    exact List.mem_append_left _ hc
  have hall : ∀ word ∈ nanWord :: infinityWords, word.all (!isDigit ·) = true := by decide
  have hnone := List.all_eq_true.1 (hall _ hword) c hmem
  rw [hdigit] at hnone
  cases hnone

/-! ### Whole texts -/

theorem readUnsigned?_of_not_isWord {cs : List Char} (h : ¬IsWord cs) :
    readUnsigned? cs = if (Numeral.scan cs).2.isEmpty &&
      !((Numeral.scan cs).1.whole ++ (Numeral.scan cs).1.fraction).isEmpty then
      some (Numeral.scan cs).1.value else none := by
  have hnan : cs.map lowerCase ≠ nanWord := fun heq => h (List.mem_cons.2 (Or.inl heq))
  have hinfinity : ¬infinityWords.contains (cs.map lowerCase) = true := fun hmem =>
    h (List.mem_cons_of_mem _ (List.contains_iff_mem.1 hmem))
  unfold readUnsigned?
  dsimp only
  rw [if_neg hinfinity, if_neg hnan]

/-- A numeral is read as what a scan of it comes to. -/
theorem readUnsigned?_of_isNumeral {cs : List Char} (h : IsNumeral cs) :
    readUnsigned? cs = some (Numeral.scan cs).1.value := by
  have hscan := Numeral.scan_of_isNumeral h
  have hdigits : ((Numeral.scan cs).1.whole ++ (Numeral.scan cs).1.fraction) ≠ [] := by
    obtain ⟨whole, fraction, exponent, rfl, hwhole, hfraction, hexponent, c, hc, hdigit⟩ := h
    rw [Numeral.scan_append hwhole hfraction hexponent]
    refine List.ne_nil_of_mem (a := c) (List.mem_append.2 ?_)
    rcases List.mem_append.1 hc with hc | hc
    · exact Or.inl hc
    · cases hfraction with
      | absent => cases hc
      | present _ =>
        rcases List.mem_cons.1 hc with rfl | hc
        · exact absurd hdigit (by decide)
        · exact Or.inr hc
  rw [readUnsigned?_of_not_isWord h.not_isWord, hscan, if_pos]
  rw [List.isEmpty_nil, Bool.true_and, Bool.not_eq_true', List.isEmpty_eq_false_iff]
  exact hdigits

/-- **Numbers without a sign**: a text that is read as a number is a word or a numeral. -/
theorem isNumeral_of_readUnsigned? {cs : List Char} {x : Float} (h : readUnsigned? cs = some x)
    (hword : ¬IsWord cs) : IsNumeral cs := by
  rw [readUnsigned?_of_not_isWord hword] at h
  split at h
  · next hcond =>
    rw [Bool.and_eq_true, Bool.not_eq_true', List.isEmpty_iff, List.isEmpty_eq_false_iff] at hcond
    obtain ⟨whole, fraction, exponent, hcs, hwhole, hfraction, hexponent, -, hwhole', hfraction',
      -⟩ := Numeral.scan_longest cs
    rw [hcond.1, List.append_nil] at hcs
    rw [hwhole', hfraction'] at hcond
    refine ⟨whole, fraction, exponent, hcs, hwhole, hfraction, hexponent, ?_⟩
    obtain ⟨c, hc⟩ := List.exists_mem_of_ne_nil _ hcond.2
    refine ⟨c, ?_⟩
    rcases List.mem_append.1 hc with hc | hc
    · exact ⟨List.mem_append_left _ hc, hwhole c hc⟩
    · cases hfraction with
      | absent => cases hc
      | present hdigits =>
        exact ⟨List.mem_append_right _ (List.mem_cons_of_mem _ hc), hdigits c hc⟩
  · cases h

/-! ### Characters of numerals -/

/-- Whether numerals have a character. -/
def isNumeralChar (c : Char) : Bool :=
  isDigit c || ['.', 'e', 'E', '+', '-'].contains c

theorem IsNumeral.isNumeralChar {cs : List Char} (h : IsNumeral cs) :
    ∀ c ∈ cs, isNumeralChar c = true := by
  have hdigits : ∀ {digits : List Char}, IsDigits digits →
      ∀ c ∈ digits, Decimal.isNumeralChar c = true := fun h c hc => by
    rw [Decimal.isNumeralChar, h c hc, Bool.true_or]
  obtain ⟨whole, fraction, exponent, rfl, hwhole, hfraction, hexponent, -⟩ := h
  refine List.forall_mem_append.2 ⟨hdigits hwhole, List.forall_mem_append.2 ⟨?_, ?_⟩⟩
  · cases hfraction with
    | absent => exact List.forall_mem_nil _
    | present h => exact List.forall_mem_cons.2 ⟨by decide, hdigits h⟩
  · cases hexponent with
    | absent => exact List.forall_mem_nil _
    | present hletter hsign _ h =>
      refine List.forall_mem_cons.2 ⟨?_, List.forall_mem_append.2 ⟨?_, hdigits h⟩⟩
      · exact List.all_eq_true.1 (by decide : ['e', 'E'].all Decimal.isNumeralChar = true) _ hletter
      · have hall : ∀ sign ∈ signs, sign.all Decimal.isNumeralChar = true := by decide
        exact List.all_eq_true.1 (hall _ hsign)

end MapAlgebra.Decimal
