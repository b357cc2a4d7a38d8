import MapAlgebra.Expr.Basic

/-!
# Derivations

The grammar of formulas as it is written down, loosest first:

    sequence = ternary (';' ternary)* ';'?
    ternary  = or ('?' ternary ':' ternary)?
    or       = and ('||' and)*
    and      = cmp ('&&' cmp)*
    cmp      = add (('==' | '!=' | '<' | '<=' | '>' | '>=') add)*
    add      = term (('+' | '-') term)*
    term     = unary (('*' | '/' | div | dv | mult | mlt) unary)*
    unary    = ('-' | '+' | '!') unary | power
    power    = primary (('^' | pow | pw) unary)?
    primary  = number | name | name '(' args ')' | '(' ternary ')' | '{' rows '}'

`Derives` says which words a phrase of the grammar derives, a phrase being a nonterminal together
with the tree that the derivation denotes; the five levels of binary operators are one nonterminal
with the tiers it spans as a parameter. `Sequence` is the start. Nothing here knows of readers,
levels left or tokens yet to come.
-/

namespace MapAlgebra.Expr

/-- A nonterminal of the grammar and what it stands for. -/
inductive Phrase where
  /-- A ternary. -/
  | formula (t : Tree String)
  /-- A chain of binary operators of given tiers, loosest first, or of none: a unary. -/
  | chain (tiers : List Tier) (t : Tree String)
  /-- A unary. -/
  | operand (t : Tree String)
  /-- A power. -/
  | power (t : Tree String)
  /-- A primary. -/
  | primary (t : Tree String)
  /-- One or more ternaries apart by a mark. -/
  | items (separator : Mark) (ts : List (Tree String))
  /-- One or more rows apart by semicolons, each of ternaries apart by commas. -/
  | rows (rows : List (List (Tree String)))

/-- The words that a phrase derives. -/
inductive Derives : Phrase → List Token → Prop where
  /-- A chain that decides between nothing. -/
  | unconditional {t : Tree String} {w : List Token} :
      Derives (.chain Tier.all t) w → Derives (.formula t) w
  /-- A conditional; what follows the colon extends as far as it can. -/
  | conditional {condition yes no : Tree String} {w₁ w₂ w₃ : List Token} :
      Derives (.chain Tier.all condition) w₁ → Derives (.formula yes) w₂ →
      Derives (.formula no) w₃ →
      Derives (.formula (.choice condition yes no))
        (w₁ ++ .mark .question :: (w₂ ++ .mark .colon :: w₃))
  /-- Below the tightest tier lies a unary. -/
  | unary {t : Tree String} {w : List Token} : Derives (.operand t) w → Derives (.chain [] t) w
  /-- A chain without an operator of its loosest tier. -/
  | tighter {tier : Tier} {tiers : List Tier} {t : Tree String} {w : List Token} :
      Derives (.chain tiers t) w → Derives (.chain (tier :: tiers) t) w
  /-- A chain whose last operator of its loosest tier is `op`: all before it is the left operand. -/
  | binary {op : BinaryOp} {tier : Tier} {tiers : List Tier} {left right : Tree String}
      {w₁ w₂ : List Token} :
      Derives (.chain (tier :: tiers) left) w₁ → op.tier? = some tier →
      Derives (.chain tiers right) w₂ →
      Derives (.chain (tier :: tiers) (.binary op left right)) (w₁ ++ .operator op :: w₂)
  /-- A minus sign before a unary. -/
  | negate {t : Tree String} {w : List Token} :
      Derives (.operand t) w → Derives (.operand (.unary .negate t)) (.operator .subtract :: w)
  /-- An exclamation mark before a unary. -/
  | not {t : Tree String} {w : List Token} :
      Derives (.operand t) w → Derives (.operand (.unary .not t)) (.mark .bang :: w)
  /-- A plus sign before a unary leaves no trace. -/
  | plus {t : Tree String} {w : List Token} :
      Derives (.operand t) w → Derives (.operand t) (.operator .add :: w)
  /-- A power without a prefix. -/
  | unprefixed {t : Tree String} {w : List Token} :
      Derives (.power t) w → Derives (.operand t) w
  /-- A primary that is not raised. -/
  | base {t : Tree String} {w : List Token} : Derives (.primary t) w → Derives (.power t) w
  /-- A primary raised to a unary. -/
  | raised {op : BinaryOp} {base exponent : Tree String} {w₁ w₂ : List Token} :
      Derives (.primary base) w₁ → op ∈ [BinaryOp.power, .cellPower, .scalarPower] →
      Derives (.operand exponent) w₂ →
      Derives (.power (.binary op base exponent)) (w₁ ++ .operator op :: w₂)
  /-- A number. -/
  | number (x : Float) : Derives (.primary (.number x)) [.number x]
  /-- A name that stands for a number. -/
  | constant {name : String} {x : Float} :
      namedConstants.lookup name = some x → Derives (.primary (.number x)) [.name name]
  /-- Any other name. -/
  | named {name : String} :
      namedConstants.lookup name = none → Derives (.primary (.variable name)) [.name name]
  /-- A call of a known function with as many arguments as it accepts. -/
  | call {name : String} {f : Function} {args : List (Tree String)} {w : List Token} :
      Function.lookup name = some f → Derives (.items .comma args) w →
      f.arity.accepts args.length = true →
      Derives (.primary (.call f args))
        (.name name :: .mark .leftParen :: (w ++ [.mark .rightParen]))
  /-- A ternary in parentheses. -/
  | group {t : Tree String} {w : List Token} : Derives (.formula t) w →
      Derives (.primary t) (.mark .leftParen :: (w ++ [.mark .rightParen]))
  /-- A matrix whose rows have one length. -/
  | matrix {rows : List (List (Tree String))} {cols : Nat} {w : List Token} :
      Derives (.rows rows) w → (∀ row ∈ rows, row.length = cols) →
      Derives (.primary (.matrix rows.length cols rows.flatten))
        (.mark .leftBrace :: (w ++ [.mark .rightBrace]))
  /-- One item. -/
  | item {separator : Mark} {t : Tree String} {w : List Token} :
      Derives (.formula t) w → Derives (.items separator [t]) w
  /-- An item before others. -/
  | items {separator : Mark} {t : Tree String} {ts : List (Tree String)} {w₁ w₂ : List Token} :
      Derives (.formula t) w₁ → Derives (.items separator ts) w₂ →
      Derives (.items separator (t :: ts)) (w₁ ++ .mark separator :: w₂)
  /-- One row. -/
  | row {row : List (Tree String)} {w : List Token} :
      Derives (.items .comma row) w → Derives (.rows [row]) w
  /-- A row before others. -/
  | rows {row : List (Tree String)} {rows : List (List (Tree String))} {w₁ w₂ : List Token} :
      Derives (.items .comma row) w₁ → Derives (.rows rows) w₂ →
      Derives (.rows (row :: rows)) (w₁ ++ .mark .semicolon :: w₂)

/-- The words of a whole formula: items apart by semicolons, and perhaps one more semicolon at the
end. Two or more items denote a call of `cat`. -/
inductive Sequence : List Token → Tree String → Prop where
  /-- No semicolon at the end. -/
  | plain {ts : List (Tree String)} {w : List Token} :
      Derives (.items .semicolon ts) w → Sequence w (sequenceTree ts)
  /-- A semicolon at the end. -/
  | closed {ts : List (Tree String)} {w : List Token} :
      Derives (.items .semicolon ts) w → Sequence (w ++ [.mark .semicolon]) (sequenceTree ts)

/-! ### First words -/

/-- Whether a primary may begin with a word. -/
def opensPrimary : Token → Bool
  | .number _ | .name _ | .mark .leftParen | .mark .leftBrace => true
  | _ => false

/-- Whether a phrase may begin with a prefix operator. -/
def Phrase.mayBePrefixed : Phrase → Bool
  | .power _ | .primary _ => false
  | _ => true

/-- Whether a phrase may begin with a word, if it may begin with prefix operators or may not. -/
def opens (mayBePrefixed : Bool) : Token → Bool
  | .operator .add | .operator .subtract | .mark .bang => mayBePrefixed
  | x => opensPrimary x

theorem opens_of_opens_false {x : Token} (h : opens false x = true) (mayBePrefixed : Bool) :
    opens mayBePrefixed x = true := by
  unfold opens at h ⊢
  split at h
  · cases h
  · cases h
  · cases h
  · exact h

/-- The words of a phrase begin as they may. -/
theorem Derives.opens {p : Phrase} {w : List Token} (h : Derives p w) :
    ∃ x w', w = x :: w' ∧ opens p.mayBePrefixed x = true := by
  -- what stands after the first part of a phrase does not matter
  have extend : ∀ {b : Bool} {w₁ : List Token} (w₂ : List Token),
      (∃ x w', w₁ = x :: w' ∧ Expr.opens b x = true) →
      ∃ x w', w₁ ++ w₂ = x :: w' ∧ Expr.opens b x = true := by
    rintro b w₁ w₂ ⟨x, w', rfl, hx⟩
    exact ⟨x, w' ++ w₂, rfl, hx⟩
  induction h with
  | unconditional _ ih | unary _ ih | tighter _ ih | item _ ih | row _ ih | base _ ih => exact ih
  | conditional _ _ _ ih | binary _ _ _ ih | items _ _ ih | rows _ _ ih | raised _ _ _ ih =>
    exact extend _ ih
  | unprefixed _ ih =>
    obtain ⟨x, w', rfl, hx⟩ := ih
    exact ⟨x, w', rfl, opens_of_opens_false hx true⟩
  | negate | not | plus | number | constant | named | call | group | matrix =>
    exact ⟨_, _, rfl, rfl⟩

/-! ### Rows -/

/-- There is a row. -/
theorem Derives.rows_ne_nil {rows : List (List (Tree String))} {w : List Token}
    (h : Derives (.rows rows) w) : rows ≠ [] := by
  cases h <;> exact List.cons_ne_nil _ _

/-- An element put before the first of the first row. -/
theorem Derives.consHead {rows : List (List (Tree String))} {t : Tree String} {w₁ w₂ : List Token}
    (ht : Derives (.formula t) w₁) (h : Derives (.rows rows) w₂) :
    Derives (.rows (Text.consHead t rows)) (w₁ ++ .mark .comma :: w₂) := by
  cases h with
  | row hrow => exact .row (.items ht hrow)
  | rows hrow hrest =>
    have hfirst := Derives.items ht hrow
    have hrows := Derives.rows hfirst hrest
    rwa [List.append_assoc, List.cons_append] at hrows

/-! ### Words at the front of tokens -/

/-- The tokens `ts` begin with the words `w`, and `rest` is left. -/
def Splits (ts : List Placed) (w : List Token) (rest : List Placed) : Prop :=
  ∃ us : List Placed, us.map (·.token) = w ∧ ts = us ++ rest

variable {ts mid rest : List Placed} {w w' : List Token}

theorem splits_nil_iff : Splits ts [] rest ↔ ts = rest := by
  constructor
  · rintro ⟨us, hus, rfl⟩
    rw [List.map_eq_nil_iff.1 hus, List.nil_append]
  · rintro rfl
    exact ⟨[], rfl, rfl⟩

theorem splits_cons_iff {x : Token} :
    Splits ts (x :: w) rest ↔ ∃ p ts', ts = p :: ts' ∧ p.token = x ∧ Splits ts' w rest := by
  constructor
  · rintro ⟨us, hus, rfl⟩
    obtain ⟨p, us', rfl, hp, hus'⟩ := List.map_eq_cons_iff.1 hus
    exact ⟨p, us' ++ rest, rfl, hp, us', hus', rfl⟩
  · rintro ⟨p, ts', rfl, rfl, us, rfl, rfl⟩
    exact ⟨p :: us, rfl, rfl⟩

theorem splits_append_iff :
    Splits ts (w ++ w') rest ↔ ∃ mid, Splits ts w mid ∧ Splits mid w' rest := by
  constructor
  · rintro ⟨us, hus, rfl⟩
    obtain ⟨us₁, us₂, rfl, h₁, h₂⟩ := List.map_eq_append_iff.1 hus
    exact ⟨us₂ ++ rest, ⟨us₁, h₁, List.append_assoc ..⟩, us₂, h₂, rfl⟩
  · rintro ⟨mid, ⟨us₁, rfl, rfl⟩, us₂, rfl, rfl⟩
    exact ⟨us₁ ++ us₂, List.map_append, (List.append_assoc ..).symm⟩

/-- One word. -/
theorem splits_singleton_iff {x : Token} :
    Splits ts [x] rest ↔ ∃ p, ts = p :: rest ∧ p.token = x := by
  rw [splits_cons_iff]
  constructor
  · rintro ⟨p, ts', rfl, hp, hts'⟩
    exact ⟨p, by rw [splits_nil_iff.1 hts'], hp⟩
  · rintro ⟨p, rfl, hp⟩
    exact ⟨p, rest, rfl, hp, splits_nil_iff.2 rfl⟩

/-- Words and one more. -/
theorem splits_concat_iff {x : Token} :
    Splits ts (w ++ [x]) rest ↔ ∃ p, p.token = x ∧ Splits ts w (p :: rest) := by
  rw [splits_append_iff]
  constructor
  · rintro ⟨mid, hts, hmid⟩
    obtain ⟨p, rfl, hp⟩ := splits_singleton_iff.1 hmid
    exact ⟨p, hp, hts⟩
  · rintro ⟨p, hp, hts⟩
    exact ⟨p :: rest, hts, splits_singleton_iff.2 ⟨p, rfl, hp⟩⟩

/-- Tokens of which nothing is left. -/
theorem splits_all_iff : Splits ts w [] ↔ ts.map (·.token) = w := by
  constructor
  · rintro ⟨us, hus, rfl⟩
    rwa [List.append_nil]
  · intro h
    exact ⟨ts, h, (List.append_nil ts).symm⟩

theorem Splits.cons {p : Placed} (h : Splits ts w rest) : Splits (p :: ts) (p.token :: w) rest :=
  splits_cons_iff.2 ⟨p, ts, rfl, rfl, h⟩

theorem Splits.append (h : Splits ts w mid) (h' : Splits mid w' rest) :
    Splits ts (w ++ w') rest :=
  splits_append_iff.2 ⟨mid, h, h'⟩

end MapAlgebra.Expr
