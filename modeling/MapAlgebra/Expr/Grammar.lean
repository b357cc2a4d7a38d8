import MapAlgebra.Expr.Reader
import MapAlgebra.Expr.Tree

/-!
# The grammar of formulas

Loosest first, the tiers of left-associative operators being those of `Tier.all`:

    formula  = chain of the loosest tier, ('?' formula ':' formula)?
    chain    = chain of the next tier, (operator of the tier, chain of the next tier)*
    operand  = ('-' | '+' | '!') operand | power
    power    = primary (('^' | 'pow' | 'pw') operand)?
    primary  = number | name | name '(' arguments ')' | '(' formula ')' | matrix in braces

Below the tightest tier the chain is an operand.

A formula may be nested `maxDepth` levels deep: every group, argument, element, branch, prefix
operator and exponent lies one level deeper than what holds it, and so does what follows each
further operator of a chain. The readers that have `n` levels left below them make up the rung `n`;
each is built from the rung below, and the rung `0` refuses everything.
-/

namespace MapAlgebra.Expr

/-- The readers with a certain number of levels left, for the constructs that open a level. -/
structure Rung where
  /-- A formula: a group, an argument, an element or a branch. -/
  formula : Reader (Tree String)
  /-- The operand of a prefix operator, or an exponent. -/
  operand : Reader (Tree String)
  /-- An operand of chains of given tiers, loosest first. -/
  chain : List Tier → Reader (Tree String)
  /-- The further operators of a chain of a tier over tighter tiers, after its left part. -/
  further : Tier → List Tier → Tree String → List Placed → Outcome (Tree String)
  /-- The further operators take tokens or none. -/
  length_further : ∀ {tier : Tier} {tighter : List Tier} {left t : Tree String}
    {ts rest : List Placed}, further tier tighter left ts = .ok t rest → rest.length ≤ ts.length

namespace Rung

/-! ### Primaries -/

/-- The arguments of a call, after the opening parenthesis. -/
def arguments (inner : Rung) (ts : List Placed) : Outcome (List (Tree String)) :=
  if ts.head?.any (·.token = .mark .rightParen) then .ok [] ts
  else inner.formula.list .comma false ts

/-- A call of the function spelled `name`, after the opening parenthesis; `start` are the tokens
from the name on. -/
def call (inner : Rung) (start : List Placed) (name : String) (ts : List Placed) :
    Outcome (Tree String) :=
  match Function.lookup name with
  | none => .fault start (.unknownFunction name)
  | some f =>
    (arguments inner ts).andThen fun args rest =>
      (expect .rightParen .argumentsEnd rest).andThen fun _ rest =>
        if f.arity.accepts args.length then .ok (.call f args) rest
        else .fault start (.argumentCount name f.arity args.length)

/-- The tree of a matrix, if its rows have one length. -/
def matrixOfRows? (rows : List (List (Tree String))) : Option (Tree String) :=
  let cols := (rows.headD []).length
  if rows.all (·.length = cols) then some (.matrix rows.length cols rows.flatten) else none

/-- A matrix, after the opening brace; `start` are the tokens from the brace on. -/
def matrix (inner : Rung) (start ts : List Placed) : Outcome (Tree String) :=
  if ts.head?.any (·.token = .mark .rightBrace) then .fault start .emptyMatrix
  else
    (inner.formula.rows ts).andThen fun rows rest =>
      match matrixOfRows? rows with
      | some t => .ok t rest
      | none => .fault start .raggedMatrix

/-- A name that is not called: a constant or a variable. -/
def nameTree (name : String) : Tree String :=
  match namedConstants.lookup name with
  | some x => .number x
  | none => .variable name

/-- The cause to report where a token stands in the place of an operand. -/
def misplaced (t : Token) : Cause :=
  match t with
  | .operator op => if op.isWord then .missingLeftOperand op else .unexpected t
  | _ => .unexpected t

/-- A number, a name, a call, a group or a matrix. -/
def primary (inner : Rung) (ts : List Placed) : Outcome (Tree String) :=
  match ts with
  | [] => .fault [] .unexpectedEnd
  | t :: rest =>
    match t.token with
    | .number x => .ok (.number x) rest
    | .name name =>
      if rest.head?.any (·.token = .mark .leftParen) then call inner ts name rest.tail
      else .ok (nameTree name) rest
    | .mark .leftParen =>
      (inner.formula.read rest).andThen fun group rest =>
        (expect .rightParen .closingParen rest).map fun _ => group
    | .mark .leftBrace => matrix inner ts rest
    | other => .fault ts (misplaced other)

theorem length_of_arguments {inner : Rung} {ts rest : List Placed} {args : List (Tree String)}
    (h : arguments inner ts = .ok args rest) : rest.length ≤ ts.length := by
  unfold arguments at h
  split at h
  · cases h; exact Nat.le_refl _
  · exact Nat.le_of_lt (Reader.length_of_list h)

theorem length_of_call {inner : Rung} {start ts rest : List Placed} {name : String}
    {t : Tree String} (h : call inner start name ts = .ok t rest) : rest.length < ts.length := by
  unfold call at h
  split at h
  · cases h
  · obtain ⟨args, mid, hargs, h⟩ := Outcome.andThen_eq_ok_iff.1 h
    obtain ⟨_, last, hexpect, h⟩ := Outcome.andThen_eq_ok_iff.1 h
    have h₁ := length_of_arguments hargs
    have h₂ := length_of_expect hexpect
    split at h <;> cases h
    omega

theorem length_of_matrix {inner : Rung} {start ts rest : List Placed} {t : Tree String}
    (h : matrix inner start ts = .ok t rest) : rest.length < ts.length := by
  unfold matrix at h
  split at h
  · cases h
  · obtain ⟨rows, mid, hrows, h⟩ := Outcome.andThen_eq_ok_iff.1 h
    split at h <;> cases h
    exact Reader.length_of_rows hrows

theorem length_of_primary {inner : Rung} {ts rest : List Placed} {t : Tree String}
    (h : primary inner ts = .ok t rest) : rest.length < ts.length := by
  unfold primary at h
  split at h
  · cases h
  · next p tail =>
    split at h
    · cases h; simp
    · split at h
      · have := length_of_call h
        simp only [List.length_tail, List.length_cons] at *
        omega
      · cases h; simp
    · obtain ⟨group, mid, hgroup, h⟩ := Outcome.andThen_eq_ok_iff.1 h
      obtain ⟨_, hexpect, -⟩ := Outcome.map_eq_ok_iff.1 h
      have h₁ := inner.formula.progress hgroup
      have h₂ := length_of_expect hexpect
      simp only [List.length_cons]
      omega
    · have := length_of_matrix h
      simp only [List.length_cons]
      omega
    · cases h

/-! ### Powers and prefix operators -/

/-- The power operator a token is. -/
def powerOp? : Token → Option BinaryOp
  | .operator op => if op ∈ [BinaryOp.power, .cellPower, .scalarPower] then some op else none
  | _ => none

/-- The prefix operator a token is; the plus sign is none, as it changes nothing. -/
def prefixOp? : Token → Option UnaryOp
  | .operator .subtract => some .negate
  | .mark .bang => some .not
  | _ => none

/-- Whether a token is the plus sign. -/
def isPlus (t : Placed) : Bool := t.token = .operator .add

/-- What follows the base of a power. -/
def exponent (inner : Rung) (base : Tree String) (ts : List Placed) : Outcome (Tree String) :=
  match ts with
  | [] => .ok base []
  | t :: rest =>
    match powerOp? t.token with
    | some op => (inner.operand.read rest).map (.binary op base)
    | none => .ok base ts

/-- A primary and the power it may be raised to. -/
def power (inner : Rung) (ts : List Placed) : Outcome (Tree String) :=
  (primary inner ts).andThen (exponent inner)

/-- Prefix operators before a power. -/
def prefixed (inner : Rung) (ts : List Placed) : Outcome (Tree String) :=
  match ts.dropWhile isPlus with
  | [] => .fault [] .unexpectedEnd
  | t :: rest =>
    match prefixOp? t.token with
    | some op => (inner.operand.read rest).map (.unary op)
    | none => power inner (t :: rest)

theorem length_of_exponent {inner : Rung} {ts rest : List Placed} {base t : Tree String}
    (h : exponent inner base ts = .ok t rest) : rest.length ≤ ts.length := by
  unfold exponent at h
  split at h
  · cases h; simp
  · split at h
    · obtain ⟨e, he, -⟩ := Outcome.map_eq_ok_iff.1 h
      have := inner.operand.progress he
      simp only [List.length_cons]
      omega
    · cases h; exact Nat.le_refl _

theorem length_of_power {inner : Rung} {ts rest : List Placed} {t : Tree String}
    (h : power inner ts = .ok t rest) : rest.length < ts.length := by
  obtain ⟨base, mid, hbase, hexp⟩ := Outcome.andThen_eq_ok_iff.1 h
  exact Nat.lt_of_le_of_lt (length_of_exponent hexp) (length_of_primary hbase)

theorem length_of_prefixed {inner : Rung} {ts rest : List Placed} {t : Tree String}
    (h : prefixed inner ts = .ok t rest) : rest.length < ts.length := by
  have hdrop := (List.dropWhile_suffix isPlus (l := ts)).length_le
  unfold prefixed at h
  split at h
  · cases h
  · next p tail heq =>
    rw [heq] at hdrop
    simp only [List.length_cons] at hdrop
    split at h
    · obtain ⟨e, he, -⟩ := Outcome.map_eq_ok_iff.1 h
      have := inner.operand.progress he
      omega
    · have := length_of_power h
      simp only [List.length_cons] at this
      omega

/-! ### Chains and conditionals -/

/-- The operator of a tier that a token is. -/
def tierOp? (tier : Tier) : Token → Option BinaryOp
  | .operator op => if op.tier? = some tier then some op else none
  | _ => none

/-- What follows the left part of a chain of a tier over tighter tiers: an operator, whose right
operand and all that follows lie one level deeper. -/
def furtherFrom (inner : Rung) (tier : Tier) (tighter : List Tier) (left : Tree String)
    (ts : List Placed) : Outcome (Tree String) :=
  match ts with
  | [] => .ok left []
  | t :: rest =>
    match tierOp? tier t.token with
    | some op =>
      ((inner.chain tighter).read rest).andThen fun right rest =>
        inner.further tier tighter (.binary op left right) rest
    | none => .ok left ts

theorem length_of_furtherFrom {inner : Rung} {tier : Tier} {tighter : List Tier}
    {left t : Tree String} {ts rest : List Placed}
    (h : furtherFrom inner tier tighter left ts = .ok t rest) : rest.length ≤ ts.length := by
  unfold furtherFrom at h
  split at h
  · cases h; simp
  · split at h
    · obtain ⟨right, mid, hright, h⟩ := Outcome.andThen_eq_ok_iff.1 h
      have h₁ := (inner.chain tighter).progress hright
      have h₂ := inner.length_further h
      simp only [List.length_cons]
      omega
    · cases h; exact Nat.le_refl _

/-- A chain of operators of given tiers, loosest first; under the tightest tier lie prefix operators
and powers. -/
def chainOf (inner : Rung) : List Tier → Reader (Tree String)
  | [] => ⟨prefixed inner, length_of_prefixed⟩
  | tier :: tighter =>
    { read := fun ts => ((chainOf inner tighter).read ts).andThen (furtherFrom inner tier tighter)
      progress := fun h => by
        obtain ⟨left, mid, hleft, h⟩ := Outcome.andThen_eq_ok_iff.1 h
        have hlt := (chainOf inner tighter).progress hleft
        exact Nat.lt_of_le_of_lt (length_of_furtherFrom h) hlt }

/-- The branches of a conditional, after its condition. -/
def branches (inner : Rung) (condition : Tree String) (ts : List Placed) : Outcome (Tree String) :=
  match ts with
  | [] => .ok condition []
  | t :: rest =>
    if t.token = .mark .question then
      (inner.formula.read rest).andThen fun yes rest =>
        (expect .colon .choiceColon rest).andThen fun _ rest =>
          (inner.formula.read rest).map (.choice condition yes)
    else .ok condition ts

theorem length_of_branches {inner : Rung} {ts rest : List Placed} {condition t : Tree String}
    (h : branches inner condition ts = .ok t rest) : rest.length ≤ ts.length := by
  unfold branches at h
  split at h
  · cases h; simp
  · split at h
    · obtain ⟨yes, mid₁, hyes, h⟩ := Outcome.andThen_eq_ok_iff.1 h
      obtain ⟨_, mid₂, hcolon, h⟩ := Outcome.andThen_eq_ok_iff.1 h
      obtain ⟨no, hno, -⟩ := Outcome.map_eq_ok_iff.1 h
      have h₁ := inner.formula.progress hyes
      have h₂ := length_of_expect hcolon
      have h₃ := inner.formula.progress hno
      simp only [List.length_cons]
      omega
    · cases h; exact Nat.le_refl _

/-- A chain of any operators, and the branches it may decide between. -/
def formulaOf (inner : Rung) : Reader (Tree String) where
  read ts := ((chainOf inner Tier.all).read ts).andThen (branches inner)
  progress h := by
    obtain ⟨condition, mid, hcondition, h⟩ := Outcome.andThen_eq_ok_iff.1 h
    exact Nat.lt_of_le_of_lt (length_of_branches h) ((chainOf inner Tier.all).progress hcondition)

/-! ### The ladder -/

/-- The reader that refuses everything. -/
def refuse : Reader (Tree String) where
  read ts := .fault ts .tooDeep
  progress h := by cases h

/-- No level is left. -/
def bottom : Rung where
  formula := refuse
  operand := refuse
  chain _ := refuse
  further _ _ _ ts := .fault ts .tooDeep
  length_further h := by cases h

/-- One level more than `inner`. -/
def above (inner : Rung) : Rung where
  formula := formulaOf inner
  operand := chainOf inner []
  chain := chainOf inner
  further := furtherFrom inner
  length_further := length_of_furtherFrom

/-- The readers with `n` levels left. -/
def ofLevels : Nat → Rung
  | 0 => bottom
  | n + 1 => above (ofLevels n)

end Rung

end MapAlgebra.Expr
