import MapAlgebra.Proofs.Expr.Completeness

/-!
# Moved tokens

What a list of tokens is read as does not depend on where the tokens start. Main statement:
**`treeOfTokens_moved`**. If every token is moved to another place, the readers take the same
tokens, and what is left of them, in a success as in a fault, has been moved like the rest.

`Reader.Blind` says so of a reader; it is kept by reading one construct after the other, and goes up
the ladder of rungs (`Rung.Blind`).
-/

namespace MapAlgebra.Expr

/-- What comes of reading, with the tokens that are left moved. -/
def Outcome.moved {α : Type} (move : Placed → Placed) : Outcome α → Outcome α
  | .ok a rest => .ok a (rest.map move)
  | .fault rest cause => .fault (rest.map move) cause

namespace Outcome

variable {α β : Type} {move : Placed → Placed}

/-- Reading goes on alike with the tokens that are left. -/
theorem andThen_moved (o : Outcome α) {f g : α → List Placed → Outcome β}
    (hfg : ∀ a rest, g a (rest.map move) = (f a rest).moved move) :
    (o.moved move).andThen g = (o.andThen f).moved move := by
  cases o with
  | ok a rest => exact hfg a rest
  | fault rest cause => rfl

theorem map_moved (f : α → β) (o : Outcome α) : (o.moved move).map f = (o.map f).moved move :=
  o.andThen_moved fun _ _ => rfl

end Outcome

variable {move : Placed → Placed} (hmove : ∀ p, (move p).token = p.token)

include hmove

theorem head?_map_any {m : Mark} (ts : List Placed) :
    (ts.map move).head?.any (·.token = .mark m) = ts.head?.any (·.token = .mark m) := by
  cases ts with
  | nil => rfl
  | cons t ts => simp only [List.map_cons, List.head?_cons, Option.any_some, hmove]

theorem expect_moved (m : Mark) (what : Expected) (ts : List Placed) :
    expect m what (ts.map move) = (expect m what ts).moved move := by
  cases ts with
  | nil => rfl
  | cons t ts =>
    unfold expect
    simp only [List.map_cons, hmove]
    split <;> rfl

/-! ### Lists of constructs -/

omit hmove in
/-- A reader that takes the same of moved tokens. -/
def Reader.Blind {α : Type} (move : Placed → Placed) (item : Reader α) : Prop :=
  ∀ ts, item.read (ts.map move) = (item.read ts).moved move

namespace Reader

variable {α : Type} {item : Reader α}

omit hmove in
/-- A separator, and what may come after it. -/
theorem more_cons (item : Reader α) (separator : Mark) (closes : Bool) (t : Placed)
    (ts : List Placed) : item.more separator closes (t :: ts) =
      if t.token = .mark separator then
        if closes && ts.isEmpty then .ok [] []
        else (item.read ts).andThen fun a rest =>
          (item.more separator closes rest).map (a :: ·)
      else .ok [] (t :: ts) := by
  rw [more.eq_def]
  dsimp only
  split
  · split
    · rfl
    · split
      · next h => rw [h]; rfl
      · next h => rw [h]; rfl
  · rfl

theorem Blind.more (hitem : item.Blind move) (separator : Mark) (closes : Bool)
    (ts : List Placed) :
    item.more separator closes (ts.map move) = (item.more separator closes ts).moved move := by
  fun_induction Reader.more item separator closes ts with
  | case1 => rw [List.map_nil, more.eq_def]; rfl
  | case2 t ts ht hlast =>
    rw [List.map_cons, more_cons, hmove, if_pos ht, List.isEmpty_map, if_pos hlast]
    rfl
  | case3 t ts ht hlast rest cause h =>
    rw [List.map_cons, more_cons, hmove, if_pos ht, List.isEmpty_map, if_neg hlast, hitem, h]
    rfl
  | case4 t ts ht hlast a rest h _ ih =>
    rw [List.map_cons, more_cons, hmove, if_pos ht, List.isEmpty_map, if_neg hlast, hitem, h,
      ← Outcome.map_moved, ← ih]
    rfl
  | case5 t ts ht =>
    rw [List.map_cons, more_cons, hmove, if_neg ht]
    rfl

theorem Blind.list (hitem : item.Blind move) (separator : Mark) (closes : Bool)
    (ts : List Placed) :
    item.list separator closes (ts.map move) = (item.list separator closes ts).moved move := by
  unfold Reader.list
  rw [hitem]
  refine Outcome.andThen_moved _ fun a rest => ?_
  rw [hitem.more hmove, Outcome.map_moved]

/-- The rows of a matrix: what is done behind an element depends on the token there. -/
theorem Blind.rows {item : Reader (Tree String)} (hitem : item.Blind move) (ts : List Placed) :
    item.rows (ts.map move) = (item.rows ts).moved move := by
  fun_induction Reader.rows item ts with
  | case1 ts rest cause h =>
    rw [rows_eq, hitem, h]
    rfl
  | case2 ts a h =>
    rw [rows_eq, hitem, h]
    rfl
  | case3 ts a t rest h _ ht ih =>
    rw [rows_eq, hitem, h, ← Outcome.map_moved, ← ih]
    simp only [Outcome.moved, Outcome.andThen, List.map_cons, hmove, ht]
  | case4 ts a t rest h _ ht ih =>
    rw [rows_eq, hitem, h, ← Outcome.map_moved, ← ih]
    simp only [Outcome.moved, Outcome.andThen, List.map_cons, hmove, ht]
  | case5 ts a t rest h _ ht =>
    rw [rows_eq, hitem, h]
    simp only [Outcome.moved, Outcome.andThen, List.map_cons, hmove, ht]
  | case6 ts a t rest h _ hcomma hsemicolon hbrace =>
    rw [rows_eq, hitem, h]
    simp only [Outcome.moved, Outcome.andThen, List.map_cons, hmove]

end Reader

/-! ### The ladder -/

namespace Rung

omit hmove in
/-- The readers of a rung take the same of moved tokens. -/
structure Blind (move : Placed → Placed) (inner : Rung) : Prop where
  /-- The reader of formulas. -/
  formula : inner.formula.Blind move
  /-- The reader of operands. -/
  operand : inner.operand.Blind move
  /-- The readers of chains. -/
  chain : ∀ tiers, (inner.chain tiers).Blind move
  /-- What follows the left part of a chain. -/
  further : ∀ tier tiers left ts,
    inner.further tier tiers left (ts.map move) = (inner.further tier tiers left ts).moved move

variable {inner : Rung}

theorem arguments_moved (hinner : inner.Blind move) (ts : List Placed) :
    arguments inner (ts.map move) = (arguments inner ts).moved move := by
  unfold arguments
  rw [head?_map_any hmove]
  split
  · rfl
  · exact hinner.formula.list hmove .comma false ts

/-- A call. Its name is moved like what follows it. -/
theorem call_moved (hinner : inner.Blind move) (start ts : List Placed) (name : String) :
    call inner (start.map move) name (ts.map move) = (call inner start name ts).moved move := by
  unfold call
  split
  · rfl
  · rw [arguments_moved hmove hinner]
    refine Outcome.andThen_moved _ fun args rest => ?_
    rw [expect_moved hmove]
    refine Outcome.andThen_moved _ fun _ rest => ?_
    split <;> rfl

theorem matrix_moved (hinner : inner.Blind move) (start ts : List Placed) :
    matrix inner (start.map move) (ts.map move) = (matrix inner start ts).moved move := by
  unfold matrix
  rw [head?_map_any hmove]
  split
  · rfl
  · rw [hinner.formula.rows hmove]
    refine Outcome.andThen_moved _ fun rows rest => ?_
    split <;> rfl

theorem primary_moved (hinner : inner.Blind move) (ts : List Placed) :
    primary inner (ts.map move) = (primary inner ts).moved move := by
  cases ts with
  | nil => rfl
  | cons t rest =>
    unfold primary
    simp only [List.map_cons, hmove]
    split
    · rfl
    · rw [head?_map_any hmove, ← List.map_tail, ← List.map_cons]
      split
      · exact call_moved hmove hinner _ _ _
      · rfl
    · rw [hinner.formula]
      refine Outcome.andThen_moved _ fun group rest => ?_
      rw [expect_moved hmove, Outcome.map_moved]
    · exact matrix_moved hmove hinner (t :: rest) rest
    · rfl

theorem exponent_moved (hinner : inner.Blind move) (base : Tree String) (ts : List Placed) :
    exponent inner base (ts.map move) = (exponent inner base ts).moved move := by
  cases ts with
  | nil => rfl
  | cons t rest =>
    unfold exponent
    simp only [List.map_cons, hmove]
    split
    · rw [hinner.operand, Outcome.map_moved]
    · rfl

theorem power_moved (hinner : inner.Blind move) (ts : List Placed) :
    power inner (ts.map move) = (power inner ts).moved move := by
  unfold power
  rw [primary_moved hmove hinner]
  exact Outcome.andThen_moved _ (exponent_moved hmove hinner)

theorem prefixed_moved (hinner : inner.Blind move) (ts : List Placed) :
    prefixed inner (ts.map move) = (prefixed inner ts).moved move := by
  have hplus : isPlus ∘ move = isPlus := by
    funext t
    rw [Function.comp_apply, isPlus, isPlus, hmove]
  unfold prefixed
  rw [List.dropWhile_map, hplus]
  cases ts.dropWhile isPlus with
  | nil => rfl
  | cons t rest =>
    simp only [List.map_cons, hmove]
    split
    · rw [hinner.operand, Outcome.map_moved]
    · exact power_moved hmove hinner (t :: rest)

theorem furtherFrom_moved (hinner : inner.Blind move) (tier : Tier) (tiers : List Tier)
    (left : Tree String) (ts : List Placed) :
    furtherFrom inner tier tiers left (ts.map move) =
      (furtherFrom inner tier tiers left ts).moved move := by
  cases ts with
  | nil => rfl
  | cons t rest =>
    unfold furtherFrom
    simp only [List.map_cons, hmove]
    split
    · rw [hinner.chain]
      exact Outcome.andThen_moved _ fun right after => hinner.further tier tiers _ after
    · rfl

theorem chainOf_blind (hinner : inner.Blind move) : ∀ tiers, (chainOf inner tiers).Blind move
  | [] => prefixed_moved hmove hinner
  | tier :: tiers => fun ts => by
    show ((chainOf inner tiers).read (ts.map move)).andThen _ = _
    rw [chainOf_blind hinner tiers ts]
    exact Outcome.andThen_moved _ (furtherFrom_moved hmove hinner tier tiers)

theorem branches_moved (hinner : inner.Blind move) (condition : Tree String) (ts : List Placed) :
    branches inner condition (ts.map move) = (branches inner condition ts).moved move := by
  cases ts with
  | nil => rfl
  | cons t rest =>
    unfold branches
    simp only [List.map_cons, hmove]
    split
    · rw [hinner.formula]
      refine Outcome.andThen_moved _ fun yes rest => ?_
      rw [expect_moved hmove]
      refine Outcome.andThen_moved _ fun _ rest => ?_
      rw [hinner.formula, Outcome.map_moved]
    · rfl

theorem formulaOf_blind (hinner : inner.Blind move) : (formulaOf inner).Blind move := fun ts => by
  show ((chainOf inner Tier.all).read (ts.map move)).andThen _ = _
  rw [chainOf_blind hmove hinner]
  exact Outcome.andThen_moved _ (branches_moved hmove hinner)

omit hmove in
/-- Where no level is left, the tokens are not looked at. -/
theorem bottom_blind : Blind move bottom :=
  ⟨fun _ => rfl, fun _ => rfl, fun _ _ => rfl, fun _ _ _ _ => rfl⟩

/-- One level more. -/
theorem above_blind (hinner : inner.Blind move) : Blind move (above inner) where
  formula := formulaOf_blind hmove hinner
  operand := chainOf_blind hmove hinner []
  chain := chainOf_blind hmove hinner
  further := furtherFrom_moved hmove hinner

theorem ofLevels_blind : ∀ n, Blind move (ofLevels n)
  | 0 => bottom_blind
  | n + 1 => above_blind hmove (ofLevels_blind n)

end Rung

/-- **Moved tokens**: what tokens are read as, and what is wrong with them, does not depend on where
they start. -/
theorem treeOfTokens_moved (ts : List Placed) :
    treeOfTokens (ts.map move) = (treeOfTokens ts).moved move := by
  unfold treeOfTokens
  rw [(Rung.ofLevels_blind hmove maxDepth).formula.list hmove]
  refine Outcome.andThen_moved _ fun items rest => ?_
  cases rest with
  | nil => rfl
  | cons t rest =>
    simp only [List.map_cons, hmove]
    rfl

end MapAlgebra.Expr
