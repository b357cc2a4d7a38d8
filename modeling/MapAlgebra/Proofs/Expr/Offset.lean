import MapAlgebra.Expr.Lexer
import Mathlib.Data.List.Infix
import Mathlib.Data.List.Pairwise

/-!
# Where tokens start

The tokens of a text are listed in the order in which they start, and each is the first lexeme of
what the text is from its offset on. Main statement: **`startsAt_of_tokenize`**.

A lexeme leaves an end of the text (`lexeme?_suffix`), so its length says where the next one is
looked for.
-/

namespace MapAlgebra.Decimal.Numeral

/-! ### Numerals leave an end of the text -/

theorem scanFraction_suffix (cs : List Char) : (scanFraction cs).2 <:+ cs := by
  unfold scanFraction
  split
  · exact (List.dropWhile_suffix _).trans (List.suffix_cons _ _)
  · exact List.suffix_rfl

theorem scanSign_suffix (cs : List Char) : (scanSign cs).2 <:+ cs := by
  unfold scanSign
  split
  · exact List.suffix_cons _ _
  · exact List.suffix_cons _ _
  · exact List.suffix_rfl

theorem scanExponent_suffix (cs : List Char) : (scanExponent cs).2 <:+ cs := by
  unfold scanExponent
  split
  · exact List.suffix_rfl
  · next c after =>
    dsimp only
    split
    · exact ((List.dropWhile_suffix _).trans (scanSign_suffix after)).trans (List.suffix_cons _ _)
    · exact List.suffix_rfl

theorem scan_suffix (cs : List Char) : (scan cs).2 <:+ cs :=
  ((scanExponent_suffix _).trans (scanFraction_suffix _)).trans (List.dropWhile_suffix _)

end MapAlgebra.Decimal.Numeral

namespace MapAlgebra.Expr

open Text Decimal

variable {cs : List Char} {ts : List Placed}

/-- What a lexeme leaves is an end of the text after its first character. -/
theorem lexeme?_suffix {c : Char} {rest : List Char} {t : Token}
    (h : lexeme? c cs = some (t, rest)) : rest <:+ cs := by
  have hlength := length_lexeme?_le h
  unfold lexeme? at h
  split at h
  · cases h
    exact List.tail_suffix cs
  · split at h
    · obtain ⟨_, -, heq⟩ := Option.map_eq_some_iff.1 h
      cases heq
      exact List.suffix_of_suffix_length_le (Numeral.scan_suffix _) (List.suffix_cons c cs) hlength
    · split at h
      · cases h
        exact List.dropWhile_suffix _
      · obtain ⟨_, -, heq⟩ := Option.map_eq_some_iff.1 h
        cases heq
        exact List.suffix_rfl

/-- A token starts at a character of a text: it is the first lexeme of the text from there on. -/
def StartsAt (cs : List Char) (offset : Nat) (t : Token) : Prop :=
  ∃ c rest after, cs.drop offset = c :: rest ∧ isBlank c = false ∧ lexeme? c rest = some (t, after)

theorem StartsAt.lt_length {offset : Nat} {t : Token} (h : StartsAt cs offset t) :
    offset < cs.length := by
  obtain ⟨c, rest, -, hdrop, -⟩ := h
  refine Nat.lt_of_not_le fun hle => ?_
  rw [List.drop_eq_nil_of_le hle] at hdrop
  cases hdrop

/-- What starts in an end of a text starts in the text. -/
theorem StartsAt.of_suffix {cs' : List Char} (hend : cs' <:+ cs) {offset : Nat} {t : Token}
    (h : StartsAt cs' offset t) : StartsAt cs (cs.length - cs'.length + offset) t := by
  obtain ⟨c, rest, after, hdrop, hlexeme⟩ := h
  rw [List.suffix_iff_eq_drop.1 hend, List.drop_drop] at hdrop
  exact ⟨c, rest, after, hdrop, hlexeme⟩

/-- What holds of the tokens of a text whose first character has an offset. -/
structure Lexed (offset : Nat) (cs : List Char) (ts : List Placed) : Prop where
  /-- The tokens start one after the other. -/
  pairwise : ts.Pairwise fun p q => p.offset < q.offset
  /-- Each starts at its offset. -/
  startsAt : ∀ p ∈ ts, ∃ n, p.offset = offset + n ∧ StartsAt cs n p.token

/-- The tokens of an end of a text are tokens of the text. -/
theorem Lexed.of_suffix {cs' : List Char} (hend : cs' <:+ cs) {offset : Nat}
    (h : Lexed (offset + (cs.length - cs'.length)) cs' ts) : Lexed offset cs ts where
  pairwise := h.pairwise
  startsAt p hp := by
    obtain ⟨n, hn, hstarts⟩ := h.startsAt p hp
    exact ⟨cs.length - cs'.length + n, by omega, hstarts.of_suffix hend⟩

theorem lexed_of_tokensFrom {offset : Nat} (h : tokensFrom offset cs = .ok ts) :
    Lexed offset cs ts := by
  fun_induction tokensFrom offset cs generalizing ts with
  | case1 =>
    cases h
    exact ⟨.nil, List.forall_mem_nil _⟩
  | case2 offset c cs hblank ih =>
    refine .of_suffix (List.suffix_cons c cs) ?_
    rw [List.length_cons, Nat.add_sub_cancel_left]
    exact ih h
  | case3 => cases h
  | case4 offset c cs hblank t rest hlexeme hle ts hts ih =>
    cases h
    have hnext := ih hts
    have hlater : Lexed offset (c :: cs) ts :=
      .of_suffix ((lexeme?_suffix hlexeme).trans (List.suffix_cons c cs)) hnext
    refine ⟨.cons (fun q hq => ?_) hlater.pairwise, List.forall_mem_cons.2 ⟨?_, hlater.startsAt⟩⟩
    · -- the next tokens start behind the lexeme, which is not empty
      obtain ⟨n, hn, -⟩ := hnext.startsAt q hq
      show offset < q.offset
      omega
    · exact ⟨0, rfl, c, cs, rest, rfl, Bool.eq_false_iff.2 hblank, hlexeme⟩
  | case5 => cases h

/-- **Tokens**: the tokens of a text start one after the other, each at its offset. -/
theorem startsAt_of_tokenize (h : tokenize cs = .ok ts) :
    (ts.Pairwise fun p q => p.offset < q.offset) ∧ ∀ p ∈ ts, StartsAt cs p.offset p.token := by
  have hlexed := lexed_of_tokensFrom h
  refine ⟨hlexed.pairwise, fun p hp => ?_⟩
  obtain ⟨n, hn, hstarts⟩ := hlexed.startsAt p hp
  rwa [hn, Nat.zero_add]

end MapAlgebra.Expr
