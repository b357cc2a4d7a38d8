import MapAlgebra.Number.Exact

/-!
# Numerals

The decimal notation of numbers: digits with an optional point and an optional exponent. Formulas
hold unsigned numerals; a list of matrix cells also allows a sign and the words for an infinity and
for what is no number.
-/

namespace MapAlgebra.Decimal

/-- Whether a character is one of the ten digits. -/
def isDigit (c : Char) : Bool := '0' ≤ c && c ≤ '9'

/-- The whole number a list of digits spells. -/
def natOfDigits (cs : List Char) : Nat :=
  cs.foldl (fun n c => 10 * n + (c.toNat - '0'.toNat)) 0

/-- A numeral: the digits before and after the point, and the exponent. -/
structure Numeral where
  /-- The digits before the point. -/
  whole : List Char
  /-- The digits after the point. -/
  fraction : List Char
  /-- The power of ten. -/
  exponent : Int
  deriving DecidableEq, Repr

namespace Numeral

/-! ### Reading a numeral off a text -/

/-- The digits of a fraction at the start of a text, and what follows it. -/
def scanFraction : List Char → List Char × List Char
  | '.' :: cs => (cs.takeWhile isDigit, cs.dropWhile isDigit)
  | cs => ([], cs)

/-- The sign at the start of a text, and what follows it. -/
def scanSign : List Char → Bool × List Char
  | '+' :: cs => (false, cs)
  | '-' :: cs => (true, cs)
  | cs => (false, cs)

/-- The exponent at the start of a text, and what follows it. There is one only when digits follow
the letter and its sign. -/
def scanExponent (cs : List Char) : Int × List Char :=
  match cs with
  | [] => (0, [])
  | c :: after =>
    let (negative, digits) := scanSign after
    let value : Int := natOfDigits (digits.takeWhile isDigit)
    if (c = 'e' || c = 'E') && digits.head?.any isDigit then
      (if negative then -value else value, digits.dropWhile isDigit)
    else (0, cs)

/-- The longest numeral at the start of a text, and what follows it. -/
def scan (cs : List Char) : Numeral × List Char :=
  let (fraction, afterFraction) := scanFraction (cs.dropWhile isDigit)
  let (exponent, rest) := scanExponent afterFraction
  (⟨cs.takeWhile isDigit, fraction, exponent⟩, rest)

/-- The characters of the longest numeral at the start of a text. -/
def literal (cs : List Char) : List Char :=
  cs.take (cs.length - (scan cs).2.length)

theorem length_dropWhile_le {α : Type} (p : α → Bool) (xs : List α) :
    (xs.dropWhile p).length ≤ xs.length :=
  (List.dropWhile_suffix p).length_le

theorem length_scanFraction_le (cs : List Char) : (scanFraction cs).2.length ≤ cs.length := by
  unfold scanFraction
  split
  · exact Nat.le_succ_of_le (length_dropWhile_le _ _)
  · exact Nat.le_refl _

theorem length_scanSign_le (cs : List Char) : (scanSign cs).2.length ≤ cs.length := by
  unfold scanSign
  split <;> simp

theorem length_scanExponent_le (cs : List Char) : (scanExponent cs).2.length ≤ cs.length := by
  unfold scanExponent
  split
  · simp
  · next c after =>
    have hsign := length_scanSign_le after
    have hdigits := length_dropWhile_le isDigit (scanSign after).2
    simp only
    split
    · simp; omega
    · simp

/-- A numeral that starts with a digit leaves less than the text after that digit. -/
theorem length_scan_digit {c : Char} (h : isDigit c = true) (cs : List Char) :
    (scan (c :: cs)).2.length ≤ cs.length := by
  have h₁ := length_dropWhile_le isDigit cs
  have h₂ := length_scanFraction_le (cs.dropWhile isDigit)
  have h₃ := length_scanExponent_le (scanFraction (cs.dropWhile isDigit)).2
  simp only [scan, List.dropWhile_cons, h, if_true]
  omega

/-- A numeral that starts with a point leaves less than the text after the point. -/
theorem length_scan_point (cs : List Char) : (scan ('.' :: cs)).2.length ≤ cs.length := by
  have h₁ := length_dropWhile_le isDigit cs
  have h₂ := length_scanExponent_le (cs.dropWhile isDigit)
  have hpoint : isDigit '.' = false := by decide
  simp only [scan, List.dropWhile_cons, hpoint, Bool.false_eq_true, if_false, scanFraction]
  omega

/-! ### Its value -/

/-- Numbers of more digits before the point than this are infinite as samples, and numbers with
more zeros than this after the point are zero. -/
def widestExponent : Int := 400

/-- The sample nearest to a numeral. -/
def value (n : Numeral) : Float :=
  let digits := n.whole ++ n.fraction
  let significand := natOfDigits digits
  let exponent := n.exponent - n.fraction.length
  if significand = 0 || exponent + digits.length < -widestExponent then 0.0
  else if widestExponent < exponent then Number.infinity
  else Float.ofScientific significand (decide (exponent < 0)) exponent.natAbs

end Numeral

/-! ### Signed numbers -/

/-- The lower-case form of a letter of the basic alphabet. -/
def lowerCase (c : Char) : Char :=
  if 'A' ≤ c && c ≤ 'Z' then Char.ofNat (c.toNat + 32) else c

/-- The words for an infinity. -/
def infinityWords : List (List Char) := ["inf".toList, "infinity".toList]

/-- The word for what is no number. -/
def nanWord : List Char := "nan".toList

/-- The sample an unsigned number spells, whole text and nothing else: a numeral with a digit before
or after its point, or one of the words in any case. -/
def readUnsigned? (cs : List Char) : Option Float :=
  let word := cs.map lowerCase
  if infinityWords.contains word then some Number.infinity
  else if word = nanWord then some Number.nan
  else
    let (n, rest) := Numeral.scan cs
    if rest.isEmpty && !(n.whole ++ n.fraction).isEmpty then some n.value else none

/-- The sample a number with an optional sign spells. -/
def readSigned? (cs : List Char) : Option Float :=
  let (negative, rest) := Numeral.scanSign cs
  (readUnsigned? rest).map fun x => if negative then -x else x

end MapAlgebra.Decimal
