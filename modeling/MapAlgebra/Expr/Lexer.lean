import MapAlgebra.Decimal.Numeral
import MapAlgebra.Expr.SyntaxError
import MapAlgebra.Text.Blank
import MapAlgebra.Text.Name

/-!
# Lexemes

A text is cut into lexemes from the left: blanks are skipped, and each lexeme is the longest one
that starts at its place. The cut fails at the first character that starts no lexeme, and would fail
where the characters taken for a numeral are no number.
-/

namespace MapAlgebra.Expr

open Text Decimal

/-- The token written as two marks. -/
def pairToken? : Char → Char → Option Token
  | '=', '=' => some (.operator .equal)
  | '!', '=' => some (.operator .unequal)
  | '<', '=' => some (.operator .atMost)
  | '>', '=' => some (.operator .atLeast)
  | '&', '&' => some (.operator .and)
  | '|', '|' => some (.operator .or)
  | _, _ => none

/-- The token written as one mark. -/
def singleToken? : Char → Option Token
  | '+' => some (.operator .add)
  | '-' => some (.operator .subtract)
  | '*' => some (.operator .multiply)
  | '/' => some (.operator .divide)
  | '^' => some (.operator .power)
  | '<' => some (.operator .less)
  | '>' => some (.operator .greater)
  | '!' => some (.mark .bang)
  | '?' => some (.mark .question)
  | ':' => some (.mark .colon)
  | ',' => some (.mark .comma)
  | ';' => some (.mark .semicolon)
  | '(' => some (.mark .leftParen)
  | ')' => some (.mark .rightParen)
  | '{' => some (.mark .leftBrace)
  | '}' => some (.mark .rightBrace)
  | _ => none

/-- The token of a word: an operator if one is spelled so, else a name. -/
def wordToken (word : String) : Token :=
  match BinaryOp.ofWord? word with
  | some op => .operator op
  | none => .name word

/-- Whether a number starts with `c` before `cs`: a digit, or a point before a digit. -/
def startsNumber (c : Char) (cs : List Char) : Bool :=
  isDigit c || (c == '.' && cs.head?.any isDigit)

/-- The first lexeme of `c` followed by `cs`, and the text after it. A numeral is taken if its
characters are a number. -/
def lexeme? (c : Char) (cs : List Char) : Option (Token × List Char) :=
  match cs.head?.bind (pairToken? c) with
  | some t => some (t, cs.tail)
  | none =>
    if startsNumber c cs then
      (readUnsigned? (Numeral.literal (c :: cs))).map (.number ·, (Numeral.scan (c :: cs)).2)
    else if startsName c then
      some (wordToken (String.ofList (c :: cs.takeWhile continuesName)), cs.dropWhile continuesName)
    else (singleToken? c).map (·, cs)

/-- Why no lexeme is taken of `c` followed by `cs`. -/
def lexemeFault (c : Char) (cs : List Char) : Cause :=
  if startsNumber c cs then .badNumeral (String.ofList (Numeral.literal (c :: cs)))
  else .strayCharacter c

/-- A lexeme takes at least its first character. -/
theorem length_lexeme?_le {c : Char} {cs rest : List Char} {t : Token}
    (h : lexeme? c cs = some (t, rest)) : rest.length ≤ cs.length := by
  unfold lexeme? at h
  split at h
  · cases h; simp
  · split at h
    · next hstart =>
      obtain ⟨_, -, heq⟩ := Option.map_eq_some_iff.1 h
      cases heq
      simp only [startsNumber, Bool.or_eq_true, Bool.and_eq_true, beq_iff_eq] at hstart
      rcases hstart with hdigit | ⟨rfl, -⟩
      · exact Numeral.length_scan_digit hdigit cs
      · exact Numeral.length_scan_point cs
    · split at h
      · cases h; exact Numeral.length_dropWhile_le _ _
      · obtain ⟨_, -, heq⟩ := Option.map_eq_some_iff.1 h
        cases heq; exact Nat.le_refl _

/-- The tokens of a text whose first character stands at `offset`. -/
def tokensFrom (offset : Nat) (cs : List Char) : Except SyntaxError (List Placed) :=
  match cs with
  | [] => .ok []
  | c :: cs =>
    if isBlank c then tokensFrom (offset + 1) cs
    else
      match h : lexeme? c cs with
      | none => .error ⟨offset, lexemeFault c cs⟩
      | some (t, rest) =>
        have := length_lexeme?_le h
        match tokensFrom (offset + (cs.length + 1 - rest.length)) rest with
        | .ok ts => .ok (⟨t, offset⟩ :: ts)
        | .error e => .error e
termination_by cs.length

/-- The tokens of a text, each with the character it starts at. -/
def tokenize (cs : List Char) : Except SyntaxError (List Placed) :=
  tokensFrom 0 cs

end MapAlgebra.Expr
