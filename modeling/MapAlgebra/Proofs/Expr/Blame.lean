import MapAlgebra.Expr.Basic
import MapAlgebra.Proofs.Expr.Offset
import MapAlgebra.Proofs.Result

/-!
# Which token is blamed

The wording of most faults describes a token, and the fault is reported at a place. Main statement:
**`Formula.blame_of_parse`**. The place is the character at which the token that is described
starts, or the length of the text if it is the end that is described. One fault is different: what
stands in the place of a separator of a matrix is described, but the fault is reported where the
token after it starts.

A fault keeps the tokens from its place on. `Outcome.Located` says that these are an end of the
tokens that were to be read, headed by the token that is described; it is kept by reading one
construct after the other, and goes up the ladder of rungs (`Rung.Located`).
-/

namespace MapAlgebra.Expr

/-! ### What is described -/

/-- The token that the wording of a cause describes, if it describes one; no token stands for the
end of the text. -/
def Cause.described? : Cause → Option (Option Token)
  | .expected _ found => some found
  | .leftover found | .unexpected found => some (some found)
  | .missingLeftOperand op => some (some (.operator op))
  | .unexpectedEnd => some none
  | .strayCharacter _ | .badNumeral _ | .tooDeep | .unknownFunction _ | .argumentCount _ _ _
  | .emptyMatrix | .raggedMatrix => none

/-- Whether a cause is that a token stands in the place of a separator of a matrix. -/
def Cause.missesSeparator : Cause → Bool
  | .expected .elementsEnd (some _) => true
  | _ => false

theorem Cause.described?_of_missesSeparator {cause : Cause} (h : cause.missesSeparator = true) :
    ∃ t, cause.described? = some (some t) := by
  unfold missesSeparator at h
  split at h
  · next t => exact ⟨t, rfl⟩
  · cases h

/-- A wording describes a token, or the end. -/
inductive Describes (message : String) : Option Token → Prop where
  /-- The description stands in the wording. -/
  | inside (before after : String) {found : Option Token} :
      message = before ++ describeNext found ++ after → Describes message found
  /-- The wording begins with the description, and so with a capital letter. -/
  | inFront {op : BinaryOp} : message = s!"Operator '{op.symbol}' is missing its left operand" →
      Describes message (some (.operator op))

/-- The wording of a cause describes the token. -/
theorem Cause.describes_message {cause : Cause} {found : Option Token}
    (h : cause.described? = some found) : Describes cause.message found := by
  cases cause with
  | expected what found' =>
    cases h
    refine .inside s!"Expected {what.text}, found " "" ?_
    rw [String.append_empty]
    rfl
  | leftover t =>
    cases h
    exact .inside "Unexpected " " after expression" rfl
  | missingLeftOperand op =>
    cases h
    exact .inFront rfl
  | unexpectedEnd =>
    cases h
    exact .inside "Unexpected " "" rfl
  | unexpected t =>
    cases h
    refine .inside "Unexpected " "" ?_
    rw [String.append_empty]
    rfl
  | _ => cases h

/-! ### Places of faults -/

/-- A fault that keeps the tokens `rest` is one of the tokens `ts` and reported at its place: it
keeps an end of them that begins with the token that is described, or in the one case the tokens
after it. -/
def Blames (ts rest : List Placed) (cause : Cause) : Prop :=
  ∃ place, place <:+ ts ∧
    (∀ found, cause.described? = some found → place.head?.map (·.token) = found) ∧
    rest = if cause.missesSeparator then place.tail else place

theorem Blames.mono {ts ts' rest : List Placed} {cause : Cause} (hend : ts' <:+ ts)
    (h : Blames ts' rest cause) : Blames ts rest cause := by
  obtain ⟨place, hplace, hfound, hrest⟩ := h
  exact ⟨place, hplace.trans hend, hfound, hrest⟩

/-- A fault that is reported at the token it describes. -/
theorem blames_here {ts rest : List Placed} {cause : Cause}
    (hfound : cause.described? = some (rest.head?.map (·.token)))
    (hseparator : cause.missesSeparator = false) (hend : rest <:+ ts) : Blames ts rest cause := by
  refine ⟨rest, hend, fun found h => ?_, ?_⟩
  · rw [hfound] at h
    exact Option.some.inj h
  · rw [hseparator]
    rfl

/-- A fault that describes no token. -/
theorem blames_undescribed {ts rest : List Placed} {cause : Cause}
    (hnone : cause.described? = none) (hend : rest <:+ ts) : Blames ts rest cause := by
  refine ⟨rest, hend, fun found h => ?_, ?_⟩
  · rw [hnone] at h
    cases h
  · rw [if_neg fun hseparator => ?_]
    obtain ⟨t, ht⟩ := Cause.described?_of_missesSeparator hseparator
    rw [hnone] at ht
    cases ht

/-- What comes of reading some tokens is an end of them, or a fault at its place. -/
def Outcome.Located {α : Type} (ts : List Placed) : Outcome α → Prop
  | .ok _ rest => rest <:+ ts
  | .fault rest cause => Blames ts rest cause

namespace Outcome.Located

variable {α β : Type} {o : Outcome α} {ts ts' : List Placed}

theorem mono (hend : ts' <:+ ts) (h : o.Located ts') : o.Located ts := by
  cases o with
  | ok a rest => exact h.trans hend
  | fault rest cause => exact Blames.mono hend h

/-- Reading goes on with the tokens that are left. -/
theorem andThen {f : α → List Placed → Outcome β} (h : o.Located ts)
    (hf : ∀ a rest, rest <:+ ts → (f a rest).Located ts) : (o.andThen f).Located ts := by
  cases o with
  | ok a rest => exact hf a rest h
  | fault rest cause => exact h

theorem map {f : α → β} (h : o.Located ts) : (o.map f).Located ts :=
  h.andThen fun _ _ hrest => hrest

end Outcome.Located

/-- A mark that is not a separator of a matrix. -/
theorem located_expect (m : Mark) (what : Expected) (hwhat : what ≠ .elementsEnd)
    (ts : List Placed) : (expect m what ts).Located ts := by
  have hseparator : ∀ found, (Cause.expected what found).missesSeparator = false := by
    intro found
    cases what with
    | elementsEnd => exact absurd rfl hwhat
    | _ => rfl
  unfold expect
  split
  · exact blames_here rfl (hseparator _) List.suffix_rfl
  · next t ts =>
    split
    · exact List.suffix_cons t ts
    · exact blames_here rfl (hseparator _) List.suffix_rfl

/-! ### Lists of constructs -/

namespace Reader

variable {α : Type} {item : Reader α}

/-- Whatever a reader comes to is located. -/
def Located (item : Reader α) : Prop := ∀ ts, (item.read ts).Located ts

/-- What an item that has been read leaves is an end of the tokens. -/
theorem Located.suffix (hitem : item.Located) {ts rest : List Placed} {a : α}
    (h : item.read ts = .ok a rest) : rest <:+ ts := by
  have := hitem ts
  rwa [h] at this

theorem Located.blames (hitem : item.Located) {ts rest : List Placed} {cause : Cause}
    (h : item.read ts = .fault rest cause) : Blames ts rest cause := by
  have := hitem ts
  rwa [h] at this

theorem Located.more (hitem : item.Located) (separator : Mark) (closes : Bool)
    (ts : List Placed) : (item.more separator closes ts).Located ts := by
  fun_induction Reader.more item separator closes ts with
  | case1 => exact List.suffix_rfl
  | case2 t ts => exact List.nil_suffix
  | case3 t ts _ _ rest cause h => exact (hitem.blames h).mono (List.suffix_cons t ts)
  | case4 t ts _ _ a rest h _ ih =>
    exact (ih.mono ((hitem.suffix h).trans (List.suffix_cons t ts))).map
  | case5 => exact List.suffix_rfl

theorem Located.list (hitem : item.Located) (separator : Mark) (closes : Bool)
    (ts : List Placed) : (item.list separator closes ts).Located ts :=
  (hitem ts).andThen fun _ rest hrest => ((hitem.more separator closes rest).mono hrest).map

/-- The rows of a matrix: what stands in the place of a separator is described, and what comes after
it is the place of the fault. -/
theorem Located.rows (hitem : item.Located) (ts : List Placed) : (item.rows ts).Located ts := by
  fun_induction Reader.rows item ts with
  | case1 ts rest cause h => exact hitem.blames h
  | case2 ts a h => exact blames_here rfl rfl (hitem.suffix h)
  | case3 ts a t rest h _ _ ih =>
    exact (ih.mono ((List.suffix_cons t rest).trans (hitem.suffix h))).map
  | case4 ts a t rest h _ _ ih =>
    exact (ih.mono ((List.suffix_cons t rest).trans (hitem.suffix h))).map
  | case5 ts a t rest h => exact (List.suffix_cons t rest).trans (hitem.suffix h)
  | case6 ts a t rest h =>
    exact ⟨t :: rest, hitem.suffix h, fun _ hfound => Option.some.inj hfound, rfl⟩

end Reader

/-! ### The ladder -/

/-- A token in the place of an operand is described. -/
theorem Rung.described?_misplaced (t : Token) : (misplaced t).described? = some (some t) := by
  unfold misplaced
  split
  · split <;> rfl
  · rfl

theorem Rung.missesSeparator_misplaced (t : Token) : (misplaced t).missesSeparator = false := by
  unfold misplaced
  split
  · split <;> rfl
  · rfl

namespace Rung

/-- Whatever the readers of a rung come to is located. -/
structure Located (inner : Rung) : Prop where
  /-- The reader of formulas. -/
  formula : inner.formula.Located
  /-- The reader of operands. -/
  operand : inner.operand.Located
  /-- The readers of chains. -/
  chain : ∀ tiers, (inner.chain tiers).Located
  /-- What follows the left part of a chain. -/
  further : ∀ tier tiers left ts, (inner.further tier tiers left ts).Located ts

variable {inner : Rung}

theorem located_arguments (hinner : inner.Located) (ts : List Placed) :
    (arguments inner ts).Located ts := by
  unfold arguments
  split
  · exact List.suffix_rfl
  · exact hinner.formula.list .comma false ts

/-- A call, whose faults of its own are reported at its name. -/
theorem located_call (hinner : inner.Located) {start ts : List Placed} (hend : ts <:+ start)
    (name : String) : (call inner start name ts).Located start := by
  unfold call
  split
  · exact blames_undescribed rfl List.suffix_rfl
  · next f _ =>
    refine ((located_arguments hinner ts).mono hend).andThen fun args rest hrest => ?_
    have hclose := located_expect .rightParen .argumentsEnd (by decide) rest
    refine (hclose.mono hrest).andThen fun _ rest' hrest' => ?_
    split
    · exact hrest'
    · exact blames_undescribed rfl List.suffix_rfl

/-- A matrix, whose faults of its own are reported at its brace. -/
theorem located_matrix (hinner : inner.Located) {start ts : List Placed} (hend : ts <:+ start) :
    (matrix inner start ts).Located start := by
  unfold matrix
  split
  · exact blames_undescribed rfl List.suffix_rfl
  · refine ((hinner.formula.rows ts).mono hend).andThen fun rows rest hrest => ?_
    split
    · exact hrest
    · exact blames_undescribed rfl List.suffix_rfl

theorem located_primary (hinner : inner.Located) (ts : List Placed) :
    (primary inner ts).Located ts := by
  unfold primary
  split
  · exact blames_here rfl rfl List.suffix_rfl
  · next t rest =>
    have hrest : rest <:+ t :: rest := List.suffix_cons t rest
    split
    · exact hrest
    · split
      · exact located_call hinner ((List.tail_suffix rest).trans hrest) _
      · exact hrest
    · refine ((hinner.formula rest).mono hrest).andThen fun group after hafter => ?_
      have hclose := located_expect .rightParen .closingParen (by decide) after
      exact (hclose.mono hafter).map
    · exact located_matrix hinner hrest
    · exact blames_here (described?_misplaced _) (missesSeparator_misplaced _) List.suffix_rfl

theorem located_exponent (hinner : inner.Located) (base : Tree String) (ts : List Placed) :
    (exponent inner base ts).Located ts := by
  unfold exponent
  split
  · exact List.suffix_rfl
  · next t rest =>
    split
    · exact ((hinner.operand rest).mono (List.suffix_cons t rest)).map
    · exact List.suffix_rfl

theorem located_power (hinner : inner.Located) (ts : List Placed) : (power inner ts).Located ts :=
  (located_primary hinner ts).andThen fun base rest hrest =>
    (located_exponent hinner base rest).mono hrest

theorem located_prefixed (hinner : inner.Located) (ts : List Placed) :
    (prefixed inner ts).Located ts := by
  have hend : ts.dropWhile isPlus <:+ ts := List.dropWhile_suffix isPlus
  unfold prefixed
  split
  · exact blames_here rfl rfl List.nil_suffix
  · next t rest htokens =>
    rw [htokens] at hend
    split
    · exact ((hinner.operand rest).mono ((List.suffix_cons t rest).trans hend)).map
    · exact (located_power hinner (t :: rest)).mono hend

theorem located_furtherFrom (hinner : inner.Located) (tier : Tier) (tiers : List Tier)
    (left : Tree String) (ts : List Placed) :
    (furtherFrom inner tier tiers left ts).Located ts := by
  unfold furtherFrom
  split
  · exact List.suffix_rfl
  · next t rest =>
    split
    · refine ((hinner.chain tiers rest).mono (List.suffix_cons t rest)).andThen ?_
      exact fun right after hafter => (hinner.further tier tiers _ after).mono hafter
    · exact List.suffix_rfl

theorem located_chainOf (hinner : inner.Located) : ∀ tiers, (chainOf inner tiers).Located
  | [] => located_prefixed hinner
  | tier :: tiers => fun ts =>
    (located_chainOf hinner tiers ts).andThen fun left rest hrest =>
      (located_furtherFrom hinner tier tiers left rest).mono hrest

theorem located_branches (hinner : inner.Located) (condition : Tree String) (ts : List Placed) :
    (branches inner condition ts).Located ts := by
  unfold branches
  split
  · exact List.suffix_rfl
  · next t rest =>
    split
    · refine ((hinner.formula rest).mono (List.suffix_cons t rest)).andThen fun yes mid hmid => ?_
      have hcolon := located_expect .colon .choiceColon (by decide) mid
      refine (hcolon.mono hmid).andThen fun _ last hlast => ?_
      exact ((hinner.formula last).mono hlast).map
    · exact List.suffix_rfl

theorem located_formulaOf (hinner : inner.Located) : (formulaOf inner).Located := fun ts =>
  (located_chainOf hinner Tier.all ts).andThen fun condition rest hrest =>
    (located_branches hinner condition rest).mono hrest

/-- Where no level is left, nothing is described. -/
theorem located_bottom : Located bottom := by
  have hrefuse : refuse.Located := fun _ => blames_undescribed rfl List.suffix_rfl
  exact ⟨hrefuse, hrefuse, fun _ => hrefuse, fun _ _ _ => hrefuse⟩

/-- One level more. -/
theorem located_above (hinner : inner.Located) : Located (above inner) where
  formula := located_formulaOf hinner
  operand := located_chainOf hinner []
  chain := located_chainOf hinner
  further := located_furtherFrom hinner

theorem located_ofLevels : ∀ n, Located (ofLevels n)
  | 0 => located_bottom
  | n + 1 => located_above (located_ofLevels n)

end Rung

theorem located_treeOfTokens (ts : List Placed) : (treeOfTokens ts).Located ts := by
  have hlist := (Rung.located_ofLevels maxDepth).formula.list .semicolon true ts
  refine hlist.andThen fun items rest hrest => ?_
  split
  · exact List.nil_suffix
  · exact blames_here rfl rfl hrest

/-! ### Texts -/

/-- What stands at a place of a text that has been cut into tokens. -/
inductive OccursAt (text : String) (ts : List Placed) : Nat → Option Token → Prop where
  /-- One of the tokens starts there. -/
  | token {p : Placed} : p ∈ ts → StartsAt text.toList p.offset p.token →
      OccursAt text ts p.offset (some p.token)
  /-- The text ends there. -/
  | ending : OccursAt text ts text.length none

theorem OccursAt.mem {text : String} {ts : List Placed} {n : Nat} {t : Token}
    (h : OccursAt text ts n (some t)) : ⟨t, n⟩ ∈ ts := by
  cases h with
  | token hp => exact hp

/-- The place at which some last tokens of a text begin. -/
def placeOf (text : String) (rest : List Placed) : Nat :=
  (rest.head?.map (·.offset)).getD text.length

theorem occursAt_placeOf {text : String} {ts place : List Placed}
    (htokens : tokenize text.toList = .ok ts) (hend : place <:+ ts) :
    OccursAt text ts (placeOf text place) (place.head?.map (·.token)) := by
  cases place with
  | nil => exact .ending
  | cons p rest =>
    have hp : p ∈ ts := hend.subset List.mem_cons_self
    exact .token hp ((startsAt_of_tokenize htokens).2 p hp)

/-- What comes after a token is at a later place. -/
theorem offset_lt_placeOf {text : String} {ts rest : List Placed} {p : Placed}
    (htokens : tokenize text.toList = .ok ts) (hend : p :: rest <:+ ts) :
    p.offset < placeOf text rest := by
  obtain ⟨hpairwise, hstarts⟩ := startsAt_of_tokenize htokens
  cases rest with
  | nil =>
    have hlt := (hstarts p (hend.subset List.mem_cons_self)).lt_length
    rwa [String.length_toList] at hlt
  | cons q rest =>
    have hlater := List.pairwise_cons.1 (hpairwise.sublist hend.sublist)
    exact hlater.1 q List.mem_cons_self

/-- A fault of a text that is cut into tokens is located among them. -/
theorem Formula.blames_of_parse {text : String} {ts : List Placed} {e : SyntaxError}
    (htokens : tokenize text.toList = .ok ts) (h : Formula.parse text = .error e) :
    ∃ rest, Blames ts rest e.cause ∧ e.position = placeOf text rest := by
  have hlocated := located_treeOfTokens ts
  unfold Formula.parse at h
  rw [htokens] at h
  dsimp only at h
  split at h
  · cases h
  · next rest cause hfault =>
    cases h
    rw [hfault] at hlocated
    exact ⟨rest, hlocated, rfl⟩

/-- **Blame**: if a text is cut into tokens and rejected by a fault whose wording describes a token,
a token with this description starts at the place of the fault, the end being at the length of the
text. Only what stands in the place of a separator of a matrix starts before the place of the fault,
which is where the token after it starts. -/
theorem Formula.blame_of_parse {text : String} {ts : List Placed} {e : SyntaxError}
    {found : Option Token} (htokens : tokenize text.toList = .ok ts)
    (h : Formula.parse text = .error e) (hfound : e.cause.described? = some found) :
    Describes e.cause.message found ∧
      (e.cause.missesSeparator = false → OccursAt text ts e.position found) ∧
      (e.cause.missesSeparator = true → ∃ p rest, p :: rest <:+ ts ∧ found = some p.token ∧
        OccursAt text ts p.offset found ∧ p.offset < e.position ∧
        e.position = placeOf text rest) := by
  obtain ⟨rest, ⟨place, hend, hdescribed, hrest⟩, hposition⟩ := blames_of_parse htokens h
  obtain rfl := hdescribed found hfound
  have hoccurs := occursAt_placeOf htokens hend
  refine ⟨Cause.describes_message hfound, fun hseparator => ?_, fun hseparator => ?_⟩
  · rw [hseparator] at hrest
    rw [hposition, hrest]
    exact hoccurs
  · rw [hseparator, if_pos rfl] at hrest
    cases place with
    | nil =>
      obtain ⟨t, ht⟩ := Cause.described?_of_missesSeparator hseparator
      rw [ht] at hfound
      cases hfound
    | cons p after =>
      obtain rfl : rest = after := hrest
      refine ⟨p, rest, hend, rfl, hoccurs, ?_, hposition⟩
      rw [hposition]
      exact offset_lt_placeOf htokens hend

/-- A parenthesis where a colon must come is reported where it stands, a colon in a matrix where the
name after it stands. -/
theorem Formula.blame_colons :
    (∃ ts e, tokenize "a * (b ? c)".toList = .ok ts ∧ Formula.parse "a * (b ? c)" = .error e ∧
      e.cause.described? = some (some (.mark .rightParen)) ∧
      OccursAt "a * (b ? c)" ts 10 (some (.mark .rightParen))) ∧
    ∃ ts e, tokenize "\x7ba:b\x7d".toList = .ok ts ∧ Formula.parse "\x7ba:b\x7d" = .error e ∧
      e.cause.described? = some (some (.mark .colon)) ∧
      ∃ offset < 3, OccursAt "\x7ba:b\x7d" ts offset (some (.mark .colon)) := by
  have hparen : Formula.parse "a * (b ? c)" =
      .error ⟨10, .expected .choiceColon (some (.mark .rightParen))⟩ :=
    eq_error_of_faultOf? (by decide +kernel)
  have hcolon : Formula.parse "\x7ba:b\x7d" =
      .error ⟨3, .expected .elementsEnd (some (.mark .colon))⟩ :=
    eq_error_of_faultOf? (by decide +kernel)
  have hfirst : tokenize "a * (b ? c)".toList = .ok _ := eq_ok_valueOf (by decide +kernel)
  have hsecond : tokenize "\x7ba:b\x7d".toList = .ok _ := eq_ok_valueOf (by decide +kernel)
  refine ⟨⟨_, _, hfirst, hparen, rfl, (Formula.blame_of_parse hfirst hparen rfl).2.1 rfl⟩,
    _, _, hsecond, hcolon, rfl, ?_⟩
  obtain ⟨p, rest, -, -, hoccurs, hlt, -⟩ := (Formula.blame_of_parse hsecond hcolon rfl).2.2 rfl
  exact ⟨p.offset, hlt, hoccurs⟩

/-- The colon in a matrix does not start where it is reported. -/
theorem Formula.blame_tokenAfter : ∃ ts e,
    tokenize "\x7ba:b\x7d".toList = .ok ts ∧ Formula.parse "\x7ba:b\x7d" = .error e ∧
      e.cause.message = "Expected ',', ';' or '\x7d' in matrix, found ':'" ∧
      e.cause.described? = some (some (.mark .colon)) ∧
      ¬OccursAt "\x7ba:b\x7d" ts e.position (some (.mark .colon)) ∧
      ∀ p ∈ ts, p.offset = e.position → p.token.describe ≠ "':'" := by
  have hcolon : Formula.parse "\x7ba:b\x7d" =
      .error ⟨3, .expected .elementsEnd (some (.mark .colon))⟩ :=
    eq_error_of_faultOf? (by decide +kernel)
  have htokens : tokenize "\x7ba:b\x7d".toList =
      .ok [⟨.mark .leftBrace, 0⟩, ⟨.name "a", 1⟩, ⟨.mark .colon, 2⟩, ⟨.name "b", 3⟩,
        ⟨.mark .rightBrace, 4⟩] := eq_ok_of_toOption (by decide +kernel)
  have hnone : (⟨.mark .colon, 3⟩ : Placed) ∉ [⟨.mark .leftBrace, 0⟩, ⟨.name "a", 1⟩,
      ⟨.mark .colon, 2⟩, ⟨.name "b", 3⟩, ⟨.mark .rightBrace, 4⟩] := by decide +kernel
  exact ⟨_, _, htokens, hcolon, by decide +kernel, rfl, fun hoccurs => hnone hoccurs.mem,
    by decide +kernel⟩

end MapAlgebra.Expr
