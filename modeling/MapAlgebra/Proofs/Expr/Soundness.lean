import MapAlgebra.Proofs.Expr.Derivation

/-!
# Readers are sound

What a reader takes off the front of some tokens derives from the grammar, and the tree it gives is
the one that the derivation denotes. Main statement: **`derives_of_treeOfTokens`** for whole
formulas.

A rung is built from the rung below, so soundness goes up the ladder: `Rung.Sound` is what a rung
needs of the one below, `Rung.sound_above` passes it on, and `Rung.sound_ofLevels` is the induction.
-/

namespace MapAlgebra.Expr

/-- The tokens `ts` begin with words that a phrase derives, and `rest` is left. -/
def Takes (p : Phrase) (ts rest : List Placed) : Prop := ∃ w, Splits ts w rest ∧ Derives p w

theorem splits_of_expect {m : Mark} {what : Expected} {ts rest : List Placed} {u : Unit}
    (h : expect m what ts = .ok u rest) : Splits ts [.mark m] rest := by
  unfold expect at h
  split at h
  · cases h
  · next p ts =>
    split at h
    · next hp =>
      cases h
      exact splits_singleton_iff.2 ⟨p, rfl, hp⟩
    · cases h

/-! ### Lists of formulas -/

namespace Reader

/-- Whatever a reader of formulas takes derives. -/
def Sound (item : Reader (Tree String)) : Prop :=
  ∀ {ts rest : List Placed} {t : Tree String},
    item.read ts = .ok t rest → Takes (.formula t) ts rest

variable {item : Reader (Tree String)} {separator : Mark} {closes : Bool}

/-- What reading a list of formulas takes: the words of the items, and perhaps a separator at the
very end. -/
def TakesList (separator : Mark) (closes : Bool) (as : List (Tree String)) (ts rest : List Placed) :
    Prop :=
  ∃ w, Derives (.items separator as) w ∧ (Splits ts w rest ∨
    closes = true ∧ rest = [] ∧ Splits ts (w ++ [.mark separator]) [])

/-- The further items, given the words of the first. -/
theorem takesList_of_more (hitem : item.Sound) {as : List (Tree String)} {mid rest : List Placed}
    (h : item.more separator closes mid = .ok as rest) {t : Tree String} {w : List Token}
    {ts : List Placed} (ht : Derives (.formula t) w) (hts : Splits ts w mid) :
    TakesList separator closes (t :: as) ts rest := by
  fun_induction Reader.more item separator closes mid generalizing as rest t w ts with
  | case1 =>
    cases h
    exact ⟨w, .item ht, Or.inl hts⟩
  | case2 p mid hp hlast =>
    cases h
    rw [Bool.and_eq_true, List.isEmpty_iff] at hlast
    obtain ⟨hcloses, rfl⟩ := hlast
    refine ⟨w, .item ht, Or.inr ⟨hcloses, rfl, hts.append ?_⟩⟩
    exact splits_singleton_iff.2 ⟨p, rfl, hp⟩
  | case3 => cases h
  | case4 p mid hp _ a mid' ha _ ih =>
    obtain ⟨as', hmore, rfl⟩ := Outcome.map_eq_ok_iff.1 h
    obtain ⟨wa, hwa, hderives⟩ := hitem ha
    obtain ⟨w', hitems, hsplits⟩ := ih hmore hderives hwa
    have hfront : ∀ {v : List Token} {last : List Placed}, Splits mid v last →
        Splits ts (w ++ .mark separator :: v) last :=
      fun hv => hts.append (splits_cons_iff.2 ⟨p, mid, rfl, hp, hv⟩)
    refine ⟨w ++ .mark separator :: w', .items ht hitems, ?_⟩
    rcases hsplits with hsplits | ⟨hcloses, hrest, hsplits⟩
    · exact Or.inl (hfront hsplits)
    · refine Or.inr ⟨hcloses, hrest, ?_⟩
      rw [List.append_assoc, List.cons_append]
      exact hfront hsplits
  | case5 =>
    cases h
    exact ⟨w, .item ht, Or.inl hts⟩

theorem takesList_of_list (hitem : item.Sound) {as : List (Tree String)} {ts rest : List Placed}
    (h : item.list separator closes ts = .ok as rest) :
    TakesList separator closes as ts rest := by
  obtain ⟨t, mid, ht, h⟩ := Outcome.andThen_eq_ok_iff.1 h
  obtain ⟨as', hmore, rfl⟩ := Outcome.map_eq_ok_iff.1 h
  obtain ⟨w, hw, hderives⟩ := hitem ht
  exact takesList_of_more hitem hmore hderives hw

/-- The rows of a matrix and its closing brace. -/
theorem takes_of_rows (hitem : item.Sound) {rows : List (List (Tree String))}
    {ts rest : List Placed} (h : item.rows ts = .ok rows rest) :
    ∃ w, Splits ts (w ++ [.mark .rightBrace]) rest ∧ Derives (.rows rows) w := by
  fun_induction Reader.rows item ts generalizing rows rest with
  | case1 => cases h
  | case2 => cases h
  | case3 ts a p mid ha _ hp ih =>
    obtain ⟨rows', hrows, rfl⟩ := Outcome.map_eq_ok_iff.1 h
    obtain ⟨w, hw, hderives⟩ := hitem ha
    obtain ⟨w', hw', hderives'⟩ := ih hrows
    refine ⟨w ++ .mark .comma :: w', ?_, .consHead hderives hderives'⟩
    rw [List.append_assoc, List.cons_append]
    exact hw.append (splits_cons_iff.2 ⟨p, mid, rfl, hp, hw'⟩)
  | case4 ts a p mid ha _ hp ih =>
    obtain ⟨rows', hrows, rfl⟩ := Outcome.map_eq_ok_iff.1 h
    obtain ⟨w, hw, hderives⟩ := hitem ha
    obtain ⟨w', hw', hderives'⟩ := ih hrows
    refine ⟨w ++ .mark .semicolon :: w', ?_, .rows (.item hderives) hderives'⟩
    rw [List.append_assoc, List.cons_append]
    exact hw.append (splits_cons_iff.2 ⟨p, mid, rfl, hp, hw'⟩)
  | case5 ts a p mid ha _ hp =>
    cases h
    obtain ⟨w, hw, hderives⟩ := hitem ha
    refine ⟨w, hw.append ?_, .row (.item hderives)⟩
    exact splits_singleton_iff.2 ⟨p, rfl, hp⟩
  | case6 => cases h

end Reader

/-! ### Primaries -/

/-- No function accepts that there is no argument. -/
theorem accepts_zero (f : Function) : f.arity.accepts 0 = false := by
  cases f <;> rfl

namespace Rung

/-- What a rung needs of the readers below it: whatever they take derives. -/
structure Sound (inner : Rung) : Prop where
  /-- The reader of formulas. -/
  formula : inner.formula.Sound
  /-- The reader of operands. -/
  operand : ∀ {ts rest : List Placed} {t : Tree String},
    inner.operand.read ts = .ok t rest → Takes (.operand t) ts rest
  /-- The readers of chains. -/
  chain : ∀ {tiers : List Tier} {ts rest : List Placed} {t : Tree String},
    (inner.chain tiers).read ts = .ok t rest → Takes (.chain tiers t) ts rest
  /-- What follows the left part of a chain. -/
  further : ∀ {tier : Tier} {tiers : List Tier} {left t : Tree String} {w : List Token}
    {ts rest : List Placed}, Derives (.chain (tier :: tiers) left) w →
    inner.further tier tiers left ts = .ok t rest →
    ∃ w', Splits ts w' rest ∧ Derives (.chain (tier :: tiers) t) (w ++ w')

variable {inner : Rung} {start ts rest : List Placed} {t : Tree String}

theorem takes_of_call (hinner : inner.Sound) {name : String}
    (h : call inner start name ts = .ok t rest) :
    ∃ w, Splits ts w rest ∧ Derives (.primary t) (.name name :: .mark .leftParen :: w) := by
  unfold call at h
  split at h
  · cases h
  · next f hf =>
    obtain ⟨args, mid, hargs, h⟩ := Outcome.andThen_eq_ok_iff.1 h
    obtain ⟨_, last, hexpect, h⟩ := Outcome.andThen_eq_ok_iff.1 h
    split at h
    · next haccepts =>
      cases h
      unfold arguments at hargs
      split at hargs
      · cases hargs
        rw [List.length_nil, accepts_zero] at haccepts
        cases haccepts
      · obtain ⟨w, hitems, hsplits⟩ := Reader.takesList_of_list hinner.formula hargs
        have hw : Splits ts w mid := hsplits.resolve_right fun h => nomatch h.1
        exact ⟨w ++ [.mark .rightParen], hw.append (splits_of_expect hexpect),
          .call hf hitems haccepts⟩
    · cases h

theorem takes_of_matrix (hinner : inner.Sound) (h : matrix inner start ts = .ok t rest) :
    ∃ w, Splits ts w rest ∧ Derives (.primary t) (.mark .leftBrace :: w) := by
  unfold matrix at h
  split at h
  · cases h
  · obtain ⟨rows, mid, hrows, h⟩ := Outcome.andThen_eq_ok_iff.1 h
    obtain ⟨w, hw, hderives⟩ := Reader.takes_of_rows hinner.formula hrows
    unfold matrixOfRows? at h
    dsimp only at h
    split at h
    · next t' ht =>
      cases h
      split at ht
      · next hall =>
        cases ht
        refine ⟨w ++ [.mark .rightBrace], hw, .matrix hderives fun row hrow => ?_⟩
        simpa using List.all_eq_true.1 hall row hrow
      · cases ht
    · cases h

/-- A name that is not called. -/
theorem derives_nameTree (name : String) : Derives (.primary (nameTree name)) [.name name] := by
  unfold nameTree
  split
  · next x hx => exact .constant hx
  · next hx => exact .named hx

theorem takes_of_primary (hinner : inner.Sound) (h : primary inner ts = .ok t rest) :
    Takes (.primary t) ts rest := by
  unfold primary at h
  split at h
  · cases h
  · next p tail =>
    -- the first token decides what is read
    have hfirst : ∀ {x : Token} {w : List Token}, p.token = x → Splits tail w rest →
        Derives (.primary t) (x :: w) → Takes (.primary t) (p :: tail) rest := by
      rintro x w rfl hw hderives
      exact ⟨_, hw.cons, hderives⟩
    split at h
    · next x hp =>
      cases h
      exact hfirst hp (splits_nil_iff.2 rfl) (.number x)
    · next name hp =>
      split at h
      · next hparen =>
        obtain ⟨w, hw, hderives⟩ := takes_of_call hinner h
        cases tail with
        | nil => cases hparen
        | cons q tail =>
          have hq : q.token = .mark .leftParen := by simpa using hparen
          exact hfirst hp (splits_cons_iff.2 ⟨q, tail, rfl, hq, hw⟩) hderives
      · cases h
        exact hfirst hp (splits_nil_iff.2 rfl) (derives_nameTree name)
    · next hp =>
      obtain ⟨group, mid, hgroup, h⟩ := Outcome.andThen_eq_ok_iff.1 h
      obtain ⟨_, hexpect, rfl⟩ := Outcome.map_eq_ok_iff.1 h
      obtain ⟨w, hw, hderives⟩ := hinner.formula hgroup
      exact hfirst hp (hw.append (splits_of_expect hexpect)) (.group hderives)
    · next hp =>
      obtain ⟨w, hw, hderives⟩ := takes_of_matrix hinner h
      exact hfirst hp hw hderives
    · cases h

/-! ### Powers and prefix operators -/

theorem powerOp?_eq_some_iff {x : Token} {op : BinaryOp} : powerOp? x = some op ↔
    x = .operator op ∧ op ∈ [BinaryOp.power, .cellPower, .scalarPower] := by
  cases x with
  | operator op' =>
    simp only [powerOp?, Option.ite_none_right_eq_some, Option.some.injEq, Token.operator.injEq]
    constructor
    · rintro ⟨hmem, rfl⟩
      exact ⟨rfl, hmem⟩
    · rintro ⟨rfl, hmem⟩
      exact ⟨hmem, rfl⟩
  | number x => simp [powerOp?]
  | name text => simp [powerOp?]
  | mark m => simp [powerOp?]

theorem tierOp?_eq_some_iff {tier : Tier} {x : Token} {op : BinaryOp} :
    tierOp? tier x = some op ↔ x = .operator op ∧ op.tier? = some tier := by
  cases x with
  | operator op' =>
    simp only [tierOp?, Option.ite_none_right_eq_some, Option.some.injEq, Token.operator.injEq]
    constructor
    · rintro ⟨htier, rfl⟩
      exact ⟨rfl, htier⟩
    · rintro ⟨rfl, htier⟩
      exact ⟨htier, rfl⟩
  | number x => simp [tierOp?]
  | name text => simp [tierOp?]
  | mark m => simp [tierOp?]

/-- A prefix operator before a unary. -/
theorem derives_prefix {x : Token} {op : UnaryOp} (hx : prefixOp? x = some op) {w : List Token}
    (h : Derives (.operand t) w) : Derives (.operand (.unary op t)) (x :: w) := by
  unfold prefixOp? at hx
  split at hx
  · cases hx
    exact .negate h
  · cases hx
    exact .not h
  · cases hx

/-- Plus signs before a unary. -/
theorem takes_of_dropWhile_isPlus : ∀ {ts : List Placed},
    Takes (.operand t) (ts.dropWhile isPlus) rest → Takes (.operand t) ts rest
  | [], h => h
  | p :: ts, h => by
    by_cases hplus : isPlus p = true
    · rw [List.dropWhile_cons_of_pos hplus] at h
      obtain ⟨w, hw, hderives⟩ := takes_of_dropWhile_isPlus h
      have hp : p.token = .operator .add := of_decide_eq_true hplus
      exact ⟨.operator .add :: w, splits_cons_iff.2 ⟨p, ts, rfl, hp, hw⟩, .plus hderives⟩
    · rwa [List.dropWhile_cons_of_neg hplus] at h

theorem takes_of_power (hinner : inner.Sound) (h : power inner ts = .ok t rest) :
    Takes (.power t) ts rest := by
  obtain ⟨base, mid, hbase, h⟩ := Outcome.andThen_eq_ok_iff.1 h
  obtain ⟨w, hw, hderives⟩ := takes_of_primary hinner hbase
  unfold exponent at h
  split at h
  · cases h
    exact ⟨w, hw, .base hderives⟩
  · next p tail =>
    split at h
    · next op hop =>
      obtain ⟨e, he, rfl⟩ := Outcome.map_eq_ok_iff.1 h
      obtain ⟨w', hw', hderives'⟩ := hinner.operand he
      obtain ⟨hp, hmem⟩ := powerOp?_eq_some_iff.1 hop
      refine ⟨w ++ .operator op :: w', ?_, .raised hderives hmem hderives'⟩
      exact hw.append (splits_cons_iff.2 ⟨p, tail, rfl, hp, hw'⟩)
    · cases h
      exact ⟨w, hw, .base hderives⟩

theorem takes_of_prefixed (hinner : inner.Sound) (h : prefixed inner ts = .ok t rest) :
    Takes (.operand t) ts rest := by
  refine takes_of_dropWhile_isPlus ?_
  unfold prefixed at h
  split at h
  · cases h
  · next p tail heq =>
    rw [heq]
    split at h
    · next op hop =>
      obtain ⟨e, he, rfl⟩ := Outcome.map_eq_ok_iff.1 h
      obtain ⟨w, hw, hderives⟩ := hinner.operand he
      exact ⟨p.token :: w, hw.cons, derives_prefix hop hderives⟩
    · obtain ⟨w, hw, hderives⟩ := takes_of_power hinner h
      exact ⟨w, hw, .unprefixed hderives⟩

/-! ### Chains and conditionals -/

theorem takes_of_furtherFrom (hinner : inner.Sound) {tier : Tier} {tiers : List Tier}
    {left : Tree String} {w : List Token} (hleft : Derives (.chain (tier :: tiers) left) w)
    (h : furtherFrom inner tier tiers left ts = .ok t rest) :
    ∃ w', Splits ts w' rest ∧ Derives (.chain (tier :: tiers) t) (w ++ w') := by
  -- if no operator follows, the left part is all there is
  have hstop : ∀ {ts : List Placed}, ts = rest → left = t →
      ∃ w', Splits ts w' rest ∧ Derives (.chain (tier :: tiers) t) (w ++ w') := by
    rintro ts rfl rfl
    exact ⟨[], splits_nil_iff.2 rfl, by rwa [List.append_nil]⟩
  unfold furtherFrom at h
  split at h
  · cases h
    exact hstop rfl rfl
  · next p tail =>
    split at h
    · next op hop =>
      obtain ⟨right, mid, hright, h⟩ := Outcome.andThen_eq_ok_iff.1 h
      obtain ⟨w₂, hw₂, hderives₂⟩ := hinner.chain hright
      obtain ⟨hp, htier⟩ := tierOp?_eq_some_iff.1 hop
      obtain ⟨w₃, hw₃, hderives₃⟩ := hinner.further (.binary hleft htier hderives₂) h
      refine ⟨.operator op :: (w₂ ++ w₃), ?_, ?_⟩
      · exact splits_cons_iff.2 ⟨p, tail, rfl, hp, hw₂.append hw₃⟩
      · rwa [List.append_assoc, List.cons_append] at hderives₃
    · cases h
      exact hstop rfl rfl

theorem takes_of_chainOf (hinner : inner.Sound) : ∀ {tiers : List Tier} {ts rest : List Placed}
    {t : Tree String}, ((chainOf inner tiers).read ts) = .ok t rest → Takes (.chain tiers t) ts rest
  | [], ts, rest, t, h => by
    obtain ⟨w, hw, hderives⟩ := takes_of_prefixed hinner h
    exact ⟨w, hw, .unary hderives⟩
  | tier :: tiers, ts, rest, t, h => by
    obtain ⟨left, mid, hleft, h⟩ := Outcome.andThen_eq_ok_iff.1 h
    obtain ⟨w, hw, hderives⟩ := takes_of_chainOf hinner hleft
    obtain ⟨w', hw', hderives'⟩ := takes_of_furtherFrom hinner (.tighter hderives) h
    exact ⟨w ++ w', hw.append hw', hderives'⟩

theorem takes_of_formulaOf (hinner : inner.Sound) (h : (formulaOf inner).read ts = .ok t rest) :
    Takes (.formula t) ts rest := by
  obtain ⟨condition, mid, hcondition, h⟩ := Outcome.andThen_eq_ok_iff.1 h
  obtain ⟨w, hw, hderives⟩ := takes_of_chainOf hinner hcondition
  unfold branches at h
  split at h
  · cases h
    exact ⟨w, hw, .unconditional hderives⟩
  · next p tail =>
    split at h
    · next hp =>
      obtain ⟨yes, mid₁, hyes, h⟩ := Outcome.andThen_eq_ok_iff.1 h
      obtain ⟨_, mid₂, hcolon, h⟩ := Outcome.andThen_eq_ok_iff.1 h
      obtain ⟨no, hno, rfl⟩ := Outcome.map_eq_ok_iff.1 h
      obtain ⟨w₂, hw₂, hderives₂⟩ := hinner.formula hyes
      obtain ⟨w₃, hw₃, hderives₃⟩ := hinner.formula hno
      refine ⟨_, ?_, .conditional hderives hderives₂ hderives₃⟩
      refine hw.append (splits_cons_iff.2 ⟨p, tail, rfl, hp, hw₂.append ?_⟩)
      exact (splits_of_expect hcolon).append hw₃
    · cases h
      exact ⟨w, hw, .unconditional hderives⟩

/-! ### The ladder -/

/-- A rung without levels takes nothing. -/
theorem sound_bottom : Sound bottom where
  formula h := nomatch h
  operand h := nomatch h
  chain h := nomatch h
  further _ h := nomatch h

/-- One level more. -/
theorem sound_above (hinner : inner.Sound) : Sound (above inner) where
  formula h := takes_of_formulaOf hinner h
  operand h := takes_of_prefixed hinner h
  chain h := takes_of_chainOf hinner h
  further hleft h := takes_of_furtherFrom hinner hleft h

theorem sound_ofLevels : ∀ n, Sound (ofLevels n)
  | 0 => sound_bottom
  | n + 1 => sound_above (sound_ofLevels n)

end Rung

/-- **Soundness**: a list of tokens that is read as a whole formula derives from the grammar, with
the tree that was read. -/
theorem derives_of_treeOfTokens {ts rest : List Placed} {t : Tree String}
    (h : treeOfTokens ts = .ok t rest) : rest = [] ∧ Sequence (ts.map (·.token)) t := by
  obtain ⟨items, mid, hitems, h⟩ := Outcome.andThen_eq_ok_iff.1 h
  have htakes := Reader.takesList_of_list (Rung.sound_ofLevels maxDepth).formula hitems
  split at h
  · cases h
    obtain ⟨w, hderives, hsplits | ⟨-, -, hsplits⟩⟩ := htakes
    · rw [splits_all_iff.1 hsplits]
      exact ⟨rfl, .plain hderives⟩
    · rw [splits_all_iff.1 hsplits]
      exact ⟨rfl, .closed hderives⟩
  · cases h

end MapAlgebra.Expr
