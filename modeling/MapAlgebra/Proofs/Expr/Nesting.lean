import MapAlgebra.Proofs.Expr.Completeness
import Mathlib.Tactic.Ring

/-!
# Nesting

The readers of formulas have `maxDepth` levels to use up. Each prefix operator, exponent, branch,
argument and element takes a level, and so does the right operand of each further operator of a
chain; but what a chain has taken is given back at its end, and its left operand, which lies below
all operators of the chain in the tree, has been read before any of them was charged. So the levels
bound the steps of a path that do not go to a left operand or a condition (`Tree.nesting`), and they
do not bound the inner nodes of a path (`Tree.height`).

Main statement: **`Formula.nesting_of_parse`** gives both bounds. A left operand may use up all
levels once more, on each of the five tiers, so the height is bounded by the square of the number of
levels only; where left operands and conditions are leaves, it is bounded by the number of levels.
**`Formula.parse_negatedProduct`** reads a family of formulas most of which are higher than the
levels are many.
-/

namespace MapAlgebra.Expr

namespace Tree

variable {ν : Type}

/-! ### Heights -/

mutual

/-- The number of inner nodes on the longest path from the root to a leaf. -/
def height : Tree ν → Nat
  | .number _ | .variable _ => 0
  | .unary _ operand => operand.height + 1
  | .binary _ left right => max left.height right.height + 1
  | .choice condition yes no => max condition.height (max yes.height no.height) + 1
  | .call _ args => heightOfAll args + 1
  | .matrix _ _ elements => heightOfAll elements + 1

/-- The height of the highest of some trees. -/
def heightOfAll : List (Tree ν) → Nat
  | [] => 0
  | t :: ts => max t.height (heightOfAll ts)

end

mutual

/-- The number of levels below the root that the readers charge for: left operands and conditions
lie on the level of the node above them. -/
def nesting : Tree ν → Nat
  | .number _ | .variable _ => 0
  | .unary _ operand => operand.nesting + 1
  | .binary _ left right => max left.nesting (right.nesting + 1)
  | .choice condition yes no => max condition.nesting (max yes.nesting no.nesting + 1)
  | .call _ args => nestingOfAll args + 1
  | .matrix _ _ elements => nestingOfAll elements + 1

/-- The nesting of the most nested of some trees. -/
def nestingOfAll : List (Tree ν) → Nat
  | [] => 0
  | t :: ts => max t.nesting (nestingOfAll ts)

end

mutual

/-- Every left operand and every condition is a leaf. -/
def RightNested : Tree ν → Prop
  | .number _ | .variable _ => True
  | .unary _ operand => operand.RightNested
  | .binary _ left right => left.height = 0 ∧ right.RightNested
  | .choice condition yes no => condition.height = 0 ∧ yes.RightNested ∧ no.RightNested
  | .call _ args => AllRightNested args
  | .matrix _ _ elements => AllRightNested elements

/-- Every left operand and every condition of some trees is a leaf. -/
def AllRightNested : List (Tree ν) → Prop
  | [] => True
  | t :: ts => t.RightNested ∧ AllRightNested ts

end

mutual

/-- Where left operands and conditions are leaves, every inner node is charged for. -/
theorem height_le_nesting (t : Tree ν) (h : t.RightNested) : t.height ≤ t.nesting := by
  match t with
  | .number _ | .variable _ => exact Nat.le_refl 0
  | .unary _ operand => exact Nat.succ_le_succ (height_le_nesting operand h)
  | .binary _ left right =>
    have hright := height_le_nesting right h.2
    have hleft := h.1
    simp only [height, nesting]
    omega
  | .choice condition yes no =>
    have hyes := height_le_nesting yes h.2.1
    have hno := height_le_nesting no h.2.2
    have hcondition := h.1
    simp only [height, nesting]
    omega
  | .call _ args => exact Nat.succ_le_succ (heightOfAll_le_nestingOfAll args h)
  | .matrix _ _ elements => exact Nat.succ_le_succ (heightOfAll_le_nestingOfAll elements h)

theorem heightOfAll_le_nestingOfAll (ts : List (Tree ν)) (h : AllRightNested ts) :
    heightOfAll ts ≤ nestingOfAll ts := by
  match ts with
  | [] => exact Nat.le_refl 0
  | t :: ts =>
    have hfirst := height_le_nesting t h.1
    have hrest := heightOfAll_le_nestingOfAll ts h.2
    simp only [heightOfAll, nestingOfAll]
    omega

end

/-! ### Trees within bounds -/

/-- A tree is no higher than `h` and no more nested than `n`. -/
def Within (h n : Nat) (t : Tree ν) : Prop := t.height ≤ h ∧ t.nesting ≤ n

namespace Within

variable {h h' n n' : Nat} {t left right condition yes no : Tree ν} {ts : List (Tree ν)}

theorem mono (ht : t.Within h n) (hh : h ≤ h') (hn : n ≤ n') : t.Within h' n' :=
  ⟨ht.1.trans hh, ht.2.trans hn⟩

theorem unary (op : UnaryOp) (ht : t.Within h n) : (Tree.unary op t).Within (h + 1) (n + 1) :=
  ⟨Nat.succ_le_succ ht.1, Nat.succ_le_succ ht.2⟩

theorem binary (op : BinaryOp) (hleft : left.Within h (n + 1)) (hright : right.Within h n) :
    (Tree.binary op left right).Within (h + 1) (n + 1) := by
  obtain ⟨hl, hl'⟩ := hleft
  obtain ⟨hr, hr'⟩ := hright
  constructor
  · simp only [height]
    omega
  · simp only [nesting]
    omega

theorem choice (hcondition : condition.Within h (n + 1)) (hyes : yes.Within h n)
    (hno : no.Within h n) : (Tree.choice condition yes no).Within (h + 1) (n + 1) := by
  obtain ⟨hc, hc'⟩ := hcondition
  obtain ⟨hy, hy'⟩ := hyes
  obtain ⟨hn, hn'⟩ := hno
  constructor
  · simp only [height]
    omega
  · simp only [nesting]
    omega

theorem all (hts : ∀ t ∈ ts, Within h n t) : heightOfAll ts ≤ h ∧ nestingOfAll ts ≤ n := by
  induction ts with
  | nil => exact ⟨Nat.zero_le h, Nat.zero_le n⟩
  | cons t ts ih =>
    obtain ⟨hfirst, hrest⟩ := List.forall_mem_cons.1 hts
    exact ⟨max_le hfirst.1 (ih hrest).1, max_le hfirst.2 (ih hrest).2⟩

theorem call (f : Function) (hts : ∀ t ∈ ts, Within h n t) :
    (Tree.call f ts).Within (h + 1) (n + 1) :=
  ⟨Nat.succ_le_succ (all hts).1, Nat.succ_le_succ (all hts).2⟩

theorem matrix (rows cols : Nat) (hts : ∀ t ∈ ts, Within h n t) :
    (Tree.matrix rows cols ts).Within (h + 1) (n + 1) :=
  ⟨Nat.succ_le_succ (all hts).1, Nat.succ_le_succ (all hts).2⟩

end Within

end Tree

open MapAlgebra.Expr.Tree

/-! ### Lists of constructs -/

namespace Reader

variable {α : Type} {item : Reader α} {P : α → Prop}

theorem forall_of_more (hitem : ∀ {ts a rest}, item.read ts = .ok a rest → P a) {separator : Mark}
    {closes : Bool} {ts rest : List Placed} {as : List α}
    (h : item.more separator closes ts = .ok as rest) : ∀ a ∈ as, P a := by
  fun_induction Reader.more item separator closes ts generalizing as rest with
  | case1 => cases h; exact List.forall_mem_nil P
  | case2 => cases h; exact List.forall_mem_nil P
  | case3 => cases h
  | case4 _ _ _ _ a _ ha _ ih =>
    obtain ⟨as', hmore, rfl⟩ := Outcome.map_eq_ok_iff.1 h
    exact List.forall_mem_cons.2 ⟨hitem ha, ih hmore⟩
  | case5 => cases h; exact List.forall_mem_nil P

/-- What holds of every item holds of every item of a list, of which there is one. -/
theorem forall_of_list (hitem : ∀ {ts a rest}, item.read ts = .ok a rest → P a) {separator : Mark}
    {closes : Bool} {ts rest : List Placed} {as : List α}
    (h : item.list separator closes ts = .ok as rest) : (∃ a, P a) ∧ ∀ a ∈ as, P a := by
  obtain ⟨a, mid, ha, h⟩ := Outcome.andThen_eq_ok_iff.1 h
  obtain ⟨as', hmore, rfl⟩ := Outcome.map_eq_ok_iff.1 h
  exact ⟨⟨a, hitem ha⟩, List.forall_mem_cons.2 ⟨hitem ha, forall_of_more hitem hmore⟩⟩

/-- What holds of every item holds of every element of the rows of a matrix, of which there is
one. -/
theorem forall_of_rows (hitem : ∀ {ts a rest}, item.read ts = .ok a rest → P a)
    {ts rest : List Placed} {rows : List (List α)} (h : item.rows ts = .ok rows rest) :
    (∃ a, P a) ∧ ∀ a ∈ rows.flatten, P a := by
  fun_induction Reader.rows item ts generalizing rows rest with
  | case1 => cases h
  | case2 => cases h
  | case3 _ a _ _ ha _ _ ih =>
    obtain ⟨rows', hrows, rfl⟩ := Outcome.map_eq_ok_iff.1 h
    have hconsHead : (Text.consHead a rows').flatten = a :: rows'.flatten := by
      cases rows' <;> rfl
    rw [hconsHead]
    exact ⟨⟨a, hitem ha⟩, List.forall_mem_cons.2 ⟨hitem ha, (ih hrows).2⟩⟩
  | case4 _ a _ _ ha _ _ ih =>
    obtain ⟨rows', hrows, rfl⟩ := Outcome.map_eq_ok_iff.1 h
    exact ⟨⟨a, hitem ha⟩, List.forall_mem_cons.2 ⟨hitem ha, (ih hrows).2⟩⟩
  | case5 _ a _ _ ha =>
    cases h
    exact ⟨⟨a, hitem ha⟩, List.forall_mem_singleton.2 (hitem ha)⟩
  | case6 => cases h

end Reader

/-! ### Bounds by levels -/

/-- The greatest height of a formula that has `n` levels below it: on each of the five tiers a chain
may have `n` operators, and its leftmost operand may be a call in front of a power. -/
def tallest : Nat → Nat
  | 0 => 0
  | n + 1 => tallest n + 2 + 5 * (n + 1) + 1

/-- The greatest height of an operand that has `n` levels below it. -/
def tallestOperand : Nat → Nat
  | 0 => 0
  | n + 1 => tallest n + 2

theorem tallestOperand_le_tallest (n : Nat) : tallestOperand n ≤ tallest n := by
  cases n with
  | zero => exact Nat.le_refl 0
  | succ n =>
    simp only [tallestOperand, tallest]
    omega

theorem tallestOperand_le_succ (n : Nat) : tallestOperand n ≤ tallestOperand (n + 1) :=
  (tallestOperand_le_tallest n).trans (Nat.le_add_right _ 2)

theorem tallest_eq (n : Nat) : 2 * tallest n = n * (5 * n + 11) := by
  induction n with
  | zero => rfl
  | succ n ih =>
    simp only [tallest]
    have hsquare : (n + 1) * (5 * (n + 1) + 11) = n * (5 * n + 11) + 10 * n + 16 := by ring
    omega

/-- The greatest height of a chain of given tiers that has `n` levels below it. -/
def tallestChain (tiers : List Tier) (n : Nat) : Nat := tallestOperand n + tiers.length * n

theorem tallestChain_le_succ (tiers : List Tier) (n : Nat) :
    tallestChain tiers n ≤ tallestChain tiers (n + 1) :=
  Nat.add_le_add (tallestOperand_le_succ n) (Nat.mul_le_mul_left _ (Nat.le_succ n))

namespace Rung

/-- What holds of a rung of `n` levels: where something is read there is a level, and what is read
is within the bounds of the levels below. -/
structure Bounded (n : Nat) (inner : Rung) : Prop where
  /-- The reader of formulas. -/
  formula : ∀ {ts rest : List Placed} {t : Tree String},
    inner.formula.read ts = .ok t rest → ∃ k, n = k + 1 ∧ t.Within (tallest k) k
  /-- The reader of operands. -/
  operand : ∀ {ts rest : List Placed} {t : Tree String},
    inner.operand.read ts = .ok t rest → ∃ k, n = k + 1 ∧ t.Within (tallestOperand k) k
  /-- The readers of chains. -/
  chain : ∀ {tiers : List Tier} {ts rest : List Placed} {t : Tree String},
    (inner.chain tiers).read ts = .ok t rest → ∃ k, n = k + 1 ∧ t.Within (tallestChain tiers k) k
  /-- The further operators of a chain each put the left part one node lower. -/
  further : ∀ {tier : Tier} {tiers : List Tier} {left t : Tree String} {ts rest : List Placed},
    inner.further tier tiers left ts = .ok t rest → ∃ k, n = k + 1 ∧
      ∀ {h m : Nat}, left.Within h m → tallestChain tiers k ≤ h → k ≤ m → t.Within (h + k) m

variable {n : Nat} {inner : Rung} {start ts rest : List Placed} {t : Tree String}

/-- Formulas that have been read, of which there is one, have the levels of the rung below. -/
theorem forall_within {ts : List (Tree String)}
    (h : (∃ a : Tree String, ∃ k, n = k + 1 ∧ a.Within (tallest k) k) ∧
      ∀ a ∈ ts, ∃ k, n = k + 1 ∧ a.Within (tallest k) k) :
    ∃ k, n = k + 1 ∧ ∀ a ∈ ts, a.Within (tallest k) k := by
  obtain ⟨⟨a, k, rfl, -⟩, hts⟩ := h
  refine ⟨k, rfl, fun a ha => ?_⟩
  obtain ⟨k', hk, hwithin⟩ := hts a ha
  cases hk
  exact hwithin

/-- A call is one node higher than its arguments. -/
theorem within_of_call (hinner : inner.Bounded n) {name : String}
    (h : call inner start name ts = .ok t rest) :
    ∃ k, n = k + 1 ∧ t.Within (tallest k + 1) (k + 1) := by
  unfold call at h
  split at h
  · cases h
  · next f _ =>
    obtain ⟨args, mid, hargs, h⟩ := Outcome.andThen_eq_ok_iff.1 h
    obtain ⟨_, last, -, h⟩ := Outcome.andThen_eq_ok_iff.1 h
    split at h
    · next haccepts =>
      cases h
      unfold arguments at hargs
      split at hargs
      · cases hargs
        rw [List.length_nil, accepts_zero] at haccepts
        cases haccepts
      · obtain ⟨k, rfl, hwithin⟩ := forall_within (Reader.forall_of_list hinner.formula hargs)
        exact ⟨k, rfl, .call f hwithin⟩
    · cases h

/-- A matrix is one node higher than its elements. -/
theorem within_of_matrix (hinner : inner.Bounded n) (h : matrix inner start ts = .ok t rest) :
    ∃ k, n = k + 1 ∧ t.Within (tallest k + 1) (k + 1) := by
  unfold matrix at h
  split at h
  · cases h
  · obtain ⟨rows, mid, hrows, h⟩ := Outcome.andThen_eq_ok_iff.1 h
    obtain ⟨k, rfl, hwithin⟩ := forall_within (Reader.forall_of_rows hinner.formula hrows)
    unfold matrixOfRows? at h
    dsimp only at h
    split at h
    · next t' ht =>
      cases h
      split at ht
      · cases ht
        exact ⟨k, rfl, .matrix _ _ hwithin⟩
      · cases ht
    · cases h

/-- A primary is a leaf, or it is one node higher than the formulas in it. -/
theorem within_of_primary (hinner : inner.Bounded n) (h : primary inner ts = .ok t rest) :
    t.Within 0 0 ∨ ∃ k, n = k + 1 ∧ t.Within (tallest k + 1) (k + 1) := by
  have hleaf : ∀ x : Float, (Tree.number x : Tree String).Within 0 0 :=
    fun x => ⟨Nat.le_refl 0, Nat.le_refl 0⟩
  unfold primary at h
  split at h
  · cases h
  · next p tail =>
    split at h
    · cases h
      exact Or.inl (hleaf _)
    · next name _ =>
      split at h
      · exact Or.inr (within_of_call hinner h)
      · cases h
        unfold nameTree
        split
        · exact Or.inl (hleaf _)
        · exact Or.inl ⟨Nat.le_refl 0, Nat.le_refl 0⟩
    · obtain ⟨group, mid, hgroup, h⟩ := Outcome.andThen_eq_ok_iff.1 h
      obtain ⟨_, -, rfl⟩ := Outcome.map_eq_ok_iff.1 h
      obtain ⟨k, rfl, hwithin⟩ := hinner.formula hgroup
      exact Or.inr ⟨k, rfl, hwithin.mono (Nat.le_succ _) (Nat.le_succ _)⟩
    · exact Or.inr (within_of_matrix hinner h)
    · cases h

/-- A primary and the power it may be raised to. -/
theorem within_of_power (hinner : inner.Bounded n) (h : power inner ts = .ok t rest) :
    t.Within (tallestOperand n) n := by
  obtain ⟨base, mid, hbase, h⟩ := Outcome.andThen_eq_ok_iff.1 h
  have hprimary := within_of_primary hinner hbase
  have hunraised : base.Within (tallestOperand n) n := by
    rcases hprimary with hleaf | ⟨k, rfl, hwithin⟩
    · exact hleaf.mono (Nat.zero_le _) (Nat.zero_le _)
    · exact hwithin.mono (Nat.le_succ _) (Nat.le_refl _)
  unfold exponent at h
  split at h
  · cases h
    exact hunraised
  · split at h
    · next op _ =>
      obtain ⟨e, he, rfl⟩ := Outcome.map_eq_ok_iff.1 h
      obtain ⟨k, rfl, hexponent⟩ := hinner.operand he
      have hbase' : base.Within (tallest k + 1) (k + 1) := by
        rcases hprimary with hleaf | ⟨k', hk, hwithin⟩
        · exact hleaf.mono (Nat.zero_le _) (Nat.zero_le _)
        · cases hk
          exact hwithin
      have hle := tallestOperand_le_tallest k
      exact .binary op hbase' (hexponent.mono (hle.trans (Nat.le_succ _)) (Nat.le_refl k))
    · cases h
      exact hunraised

/-- Prefix operators before a power. -/
theorem within_of_prefixed (hinner : inner.Bounded n) (h : prefixed inner ts = .ok t rest) :
    t.Within (tallestOperand n) n := by
  unfold prefixed at h
  split at h
  · cases h
  · split at h
    · next op _ =>
      obtain ⟨e, he, rfl⟩ := Outcome.map_eq_ok_iff.1 h
      obtain ⟨k, rfl, hwithin⟩ := hinner.operand he
      have hle := tallestOperand_le_tallest k
      exact (hwithin.unary op).mono ((Nat.succ_le_succ hle).trans (Nat.le_succ _)) (Nat.le_refl _)
    · exact within_of_power hinner h

/-- What follows the left part of a chain. -/
theorem within_of_furtherFrom (hinner : inner.Bounded n) {tier : Tier} {tiers : List Tier}
    {left : Tree String} (h : furtherFrom inner tier tiers left ts = .ok t rest) {b m : Nat}
    (hleft : left.Within b m) (hb : tallestChain tiers n ≤ b) (hm : n ≤ m) :
    t.Within (b + n) m := by
  unfold furtherFrom at h
  split at h
  · cases h
    exact hleft.mono (Nat.le_add_right _ _) (Nat.le_refl _)
  · split at h
    · next op _ =>
      obtain ⟨right, mid, hright, h⟩ := Outcome.andThen_eq_ok_iff.1 h
      obtain ⟨k, rfl, hwithin⟩ := hinner.chain hright
      obtain ⟨k', hk, hfurther⟩ := hinner.further h
      cases hk
      obtain ⟨m, rfl⟩ : ∃ m', m = m' + 1 := ⟨m - 1, by omega⟩
      have hchain : tallestChain tiers k ≤ b := (tallestChain_le_succ tiers k).trans hb
      have hnode : (Tree.binary op left right).Within (b + 1) (m + 1) :=
        .binary op hleft (hwithin.mono hchain (by omega))
      have hrest := hfurther hnode (hchain.trans (Nat.le_succ b)) (by omega)
      exact hrest.mono (by omega) (Nat.le_refl _)
    · cases h
      exact hleft.mono (Nat.le_add_right _ _) (Nat.le_refl _)

/-- Each tier of a chain puts the operands of the tighter tiers by at most `n` nodes lower. -/
theorem within_of_chainOf (hinner : inner.Bounded n) : ∀ {tiers : List Tier} {ts rest : List Placed}
    {t : Tree String}, (chainOf inner tiers).read ts = .ok t rest →
    t.Within (tallestChain tiers n) n
  | [], ts, rest, t, h => by
    refine (within_of_prefixed hinner h).mono ?_ (Nat.le_refl n)
    simp only [tallestChain]
    omega
  | tier :: tiers, ts, rest, t, h => by
    obtain ⟨left, mid, hleft, h⟩ := Outcome.andThen_eq_ok_iff.1 h
    have hwithin := within_of_chainOf hinner hleft
    refine (within_of_furtherFrom hinner h hwithin (Nat.le_refl _) (Nat.le_refl n)).mono ?_
      (Nat.le_refl n)
    simp only [tallestChain, List.length_cons, Nat.add_mul]
    omega

theorem within_of_formulaOf (hinner : inner.Bounded n)
    (h : (formulaOf inner).read ts = .ok t rest) : t.Within (tallest n) n := by
  obtain ⟨condition, mid, hcondition, h⟩ := Outcome.andThen_eq_ok_iff.1 h
  have hchain := within_of_chainOf hinner hcondition
  have hunconditional : condition.Within (tallest n) n := by
    refine hchain.mono ?_ (Nat.le_refl n)
    cases n with
    | zero => exact Nat.le_refl 0
    | succ k =>
      simp only [tallestChain, tallestOperand, tallest, Tier.all, List.length_cons, List.length_nil]
      omega
  unfold branches at h
  split at h
  · cases h
    exact hunconditional
  · split at h
    · obtain ⟨yes, mid₁, hyes, h⟩ := Outcome.andThen_eq_ok_iff.1 h
      obtain ⟨_, mid₂, -, h⟩ := Outcome.andThen_eq_ok_iff.1 h
      obtain ⟨no, hno, rfl⟩ := Outcome.map_eq_ok_iff.1 h
      obtain ⟨k, rfl, hyes⟩ := hinner.formula hyes
      obtain ⟨k', hk, hno⟩ := hinner.formula hno
      cases hk
      have hle : tallest k ≤ tallestChain Tier.all (k + 1) :=
        (Nat.le_add_right _ 2).trans (Nat.le_add_right _ _)
      have hchoice := Within.choice hchain (hyes.mono hle (Nat.le_refl k))
        (hno.mono hle (Nat.le_refl k))
      refine hchoice.mono ?_ (Nat.le_refl _)
      simp only [tallestChain, tallestOperand, tallest, Tier.all, List.length_cons, List.length_nil]
      omega
    · cases h
      exact hunconditional

/-- A rung without levels reads nothing. -/
theorem bounded_bottom : Bounded 0 bottom where
  formula h := nomatch h
  operand h := nomatch h
  chain h := nomatch h
  further h := nomatch h

/-- One level more. -/
theorem bounded_above (hinner : inner.Bounded n) : (above inner).Bounded (n + 1) where
  formula h := ⟨n, rfl, within_of_formulaOf hinner h⟩
  operand h := ⟨n, rfl, within_of_prefixed hinner h⟩
  chain h := ⟨n, rfl, within_of_chainOf hinner h⟩
  further h := ⟨n, rfl, fun hleft hb hm => within_of_furtherFrom hinner h hleft hb hm⟩

theorem bounded_ofLevels : ∀ n, (ofLevels n).Bounded n
  | 0 => bounded_bottom
  | n + 1 => bounded_above (bounded_ofLevels n)

end Rung

/-- Tokens that are read as a whole formula. -/
theorem within_of_treeOfTokens {ts rest : List Placed} {t : Tree String}
    (h : treeOfTokens ts = .ok t rest) : t.Within (tallest (maxDepth - 1) + 1) maxDepth := by
  obtain ⟨items, mid, hitems, h⟩ := Outcome.andThen_eq_ok_iff.1 h
  have hall := (Reader.forall_of_list (Rung.bounded_ofLevels maxDepth).formula hitems).2
  have hwithin : ∀ item ∈ items, item.Within (tallest (maxDepth - 1)) (maxDepth - 1) := by
    intro item hitem
    obtain ⟨k, hk, hwithin⟩ := hall item hitem
    obtain rfl : k = maxDepth - 1 := by omega
    exact hwithin
  split at h
  · cases h
    unfold sequenceTree
    split
    · next item =>
      exact (hwithin item List.mem_cons_self).mono (Nat.le_add_right _ 1) (Nat.sub_le _ _)
    · exact .call .cat hwithin
  · cases h

/-- **Nesting**: a text that is read stands for a tree that is nested no deeper than there are
levels. The tree itself is no higher than that where its left operands and conditions are leaves;
any tree is no higher than the square of the levels allows. -/
theorem Formula.nesting_of_parse {text : String} {f : Formula} (h : Formula.parse text = .ok f) :
    f.tree.nesting ≤ maxDepth ∧ (f.tree.RightNested → f.tree.height ≤ maxDepth) ∧
      2 * f.tree.height ≤ (maxDepth - 1) * (5 * maxDepth + 6) + 2 := by
  unfold Formula.parse at h
  split at h
  · cases h
  · next ts _ =>
    split at h
    · next t rest htree =>
      cases h
      obtain ⟨hheight, hnesting⟩ := within_of_treeOfTokens htree
      refine ⟨hnesting, fun hright => (height_le_nesting t hright).trans hnesting, ?_⟩
      have htallest := tallest_eq (maxDepth - 1)
      have hlevels : 5 * (maxDepth - 1) + 11 = 5 * maxDepth + 6 := by decide
      rw [hlevels] at htallest
      dsimp only
      omega
    · cases h

/-! ### Formulas that are higher than the levels are many -/

section NegatedProduct

/-- A tree behind minus signs. -/
def negated (t : Tree String) : Nat → Tree String
  | 0 => t
  | n + 1 => .unary .negate (negated t n)

/-- A tree multiplied by `x` again and again. -/
def multiplied (t : Tree String) : Nat → Tree String
  | 0 => t
  | n + 1 => multiplied (.binary .multiply t (.variable "x")) n

theorem height_negated (t : Tree String) (n : Nat) : (negated t n).height = t.height + n := by
  induction n with
  | zero => rfl
  | succ n ih => exact congrArg (· + 1) ih

theorem height_multiplied (t : Tree String) (n : Nat) : (multiplied t n).height = t.height + n := by
  induction n generalizing t with
  | zero => rfl
  | succ n ih =>
    simp only [multiplied, ih, height]
    omega

/-- The words of factors `x`. -/
def factorWords : Nat → List Token
  | 0 => []
  | n + 1 => .operator .multiply :: .name "x" :: factorWords n

/-- The text of factors `x`. -/
def factorText : Nat → List Char
  | 0 => []
  | n + 1 => '*' :: 'x' :: factorText n

/-- The words of `x` behind `a` minus signs and before `b` factors. -/
def productWords (a b : Nat) : List Token :=
  List.replicate a (.operator .subtract) ++ .name "x" :: factorWords b

/-- The text of `x` behind `a` minus signs and before `b` factors. -/
def productText (a b : Nat) : List Char := List.replicate a '-' ++ 'x' :: factorText b

/-- Tokens go on from the first lexeme. -/
theorem tokensFrom_cons {c : Char} {cs rest : List Char} {t : Token} {w : List Token} {offset : Nat}
    (hblank : Text.isBlank c = false) (hlexeme : lexeme? c cs = some (t, rest))
    (h : ∀ offset, ∃ ts, tokensFrom offset rest = .ok ts ∧ ts.map (·.token) = w) :
    ∃ ts, tokensFrom offset (c :: cs) = .ok ts ∧ ts.map (·.token) = t :: w := by
  obtain ⟨ts, hts, hw⟩ := h (offset + (cs.length + 1 - rest.length))
  refine ⟨⟨t, offset⟩ :: ts, ?_, congrArg (t :: ·) hw⟩
  rw [tokensFrom, if_neg (by rw [hblank]; exact Bool.false_ne_true)]
  split
  · next hnone => rw [hlexeme] at hnone; cases hnone
  · next t' rest' hsome =>
    rw [hlexeme] at hsome
    cases hsome
    rw [hts]

theorem lexeme?_minus (cs : List Char) : lexeme? '-' cs = some (.operator .subtract, cs) := by
  cases cs <;> rfl

theorem lexeme?_star (cs : List Char) : lexeme? '*' cs = some (.operator .multiply, cs) := by
  cases cs <;> rfl

theorem lexeme?_factor (n : Nat) : lexeme? 'x' (factorText n) = some (.name "x", factorText n) := by
  cases n <;> rfl

theorem tokensFrom_factors (n : Nat) : ∀ offset, ∃ ts,
    tokensFrom offset ('x' :: factorText n) = .ok ts ∧
      ts.map (·.token) = .name "x" :: factorWords n := by
  induction n with
  | zero =>
    exact fun offset => tokensFrom_cons (by decide) (lexeme?_factor 0) fun offset => ⟨[], by
      rw [factorText, tokensFrom], rfl⟩
  | succ n ih =>
    exact fun offset => tokensFrom_cons (by decide) (lexeme?_factor (n + 1)) fun offset =>
      tokensFrom_cons (by decide) (lexeme?_star _) ih

theorem tokensFrom_product (a b : Nat) : ∀ offset, ∃ ts,
    tokensFrom offset (productText a b) = .ok ts ∧ ts.map (·.token) = productWords a b := by
  induction a with
  | zero => exact tokensFrom_factors b
  | succ a ih => exact fun offset => tokensFrom_cons (by decide) (lexeme?_minus _) ih

namespace Rung

variable {ts rest : List Placed}

/-- Minus signs before `x` take a level each. -/
theorem prefixed_negated {a n : Nat} (ha : a ≤ n)
    (hts : Splits ts (List.replicate a (.operator .subtract) ++ [.name "x"]) rest)
    (hrest : Ends [] rest) :
    prefixed (ofLevels n) ts = .ok (negated (.variable "x") a) rest := by
  induction a generalizing n ts with
  | zero =>
    obtain ⟨p, rfl, hp⟩ := splits_singleton_iff.1 hts
    have hplus : isPlus p = false := by rw [isPlus, hp]; rfl
    have hcall : ¬rest.head?.any (·.token = .mark .leftParen) = true := by
      intro hany
      obtain ⟨q, hq, hparen⟩ := (Option.any_eq_true _ _).1 hany
      exact hrest.1 q hq (of_decide_eq_true hparen)
    have hprimary : primary (ofLevels n) (p :: rest) = .ok (.variable "x") rest := by
      unfold primary
      dsimp only
      rw [hp]
      dsimp only
      rw [if_neg hcall]
      rfl
    unfold prefixed
    rw [List.dropWhile_cons_of_neg (by rw [hplus]; exact Bool.false_ne_true)]
    dsimp only
    rw [hp]
    dsimp only [prefixOp?]
    unfold power
    rw [hprimary]
    exact exponent_of_ends hrest
  | succ a ih =>
    obtain ⟨m, rfl⟩ : ∃ m, n = m + 1 := ⟨n - 1, by omega⟩
    obtain ⟨p, tail, rfl, hp, htail⟩ := splits_cons_iff.1 hts
    have hplus : isPlus p = false := by rw [isPlus, hp]; rfl
    have hoperand : (ofLevels (m + 1)).operand.read tail = .ok (negated (.variable "x") a) rest :=
      ih (Nat.le_of_succ_le_succ ha) htail
    unfold prefixed
    rw [List.dropWhile_cons_of_neg (by rw [hplus]; exact Bool.false_ne_true)]
    dsimp only
    rw [hp]
    dsimp only [prefixOp?]
    rw [hoperand]
    rfl

theorem ends_factors {b : Nat} (hts : Splits ts (factorWords b) []) : Ends [] ts := by
  cases b with
  | zero =>
    rw [splits_nil_iff.1 hts]
    exact ends_nil
  | succ b =>
    obtain ⟨p, tail, rfl, hp, -⟩ := splits_cons_iff.1 hts
    exact ends_cons_operator hp rfl List.not_mem_nil

/-- Factors take a level each. -/
theorem furtherFrom_multiplied {b n : Nat} {t : Tree String} (hb : b ≤ n)
    (hts : Splits ts (factorWords b) []) :
    furtherFrom (ofLevels n) .product [] t ts = .ok (multiplied t b) [] := by
  induction b generalizing n ts t with
  | zero =>
    rw [splits_nil_iff.1 hts]
    rfl
  | succ b ih =>
    obtain ⟨m, rfl⟩ : ∃ m, n = m + 1 := ⟨n - 1, by omega⟩
    obtain ⟨p, tail, rfl, hp, htail⟩ := splits_cons_iff.1 hts
    obtain ⟨mid, hfactor, hmore⟩ := splits_append_iff (w := [.name "x"]).1 htail
    have hoperand : ((ofLevels (m + 1)).chain []).read tail = .ok (.variable "x") mid :=
      prefixed_negated (Nat.zero_le m) hfactor (ends_factors hmore)
    have hop : tierOp? .product p.token = some .multiply := by rw [hp]; rfl
    unfold furtherFrom
    dsimp only
    rw [hop]
    dsimp only
    rw [hoperand]
    exact ih (Nat.le_of_succ_le_succ hb) hmore

theorem formulaOf_product {a b n : Nat} (ha : a ≤ n) (hb : b ≤ n)
    (hts : Splits ts (productWords a b) []) :
    (formulaOf (ofLevels n)).read ts = .ok (multiplied (negated (.variable "x") a) b) [] := by
  obtain ⟨mid, hmid, hfactors⟩ : ∃ mid,
      Splits ts (List.replicate a (.operator .subtract) ++ [.name "x"]) mid ∧
        Splits mid (factorWords b) [] := by
    rw [← splits_append_iff, List.append_assoc]
    exact hts
  have hoperand := prefixed_negated ha hmid (ends_factors hfactors)
  have hproduct : (chainOf (ofLevels n) [.product]).read ts =
      .ok (multiplied (negated (.variable "x") a) b) [] := by
    have hchain : (chainOf (ofLevels n) [.product]).read ts =
      (prefixed (ofLevels n) ts).andThen (furtherFrom (ofLevels n) .product []) := rfl
    rw [hchain, hoperand]
    exact furtherFrom_multiplied hb hfactors
  have hformula : (formulaOf (ofLevels n)).read ts =
    ((((((chainOf (ofLevels n) [.product]).read ts).andThen
      (furtherFrom (ofLevels n) .sum _)).andThen
      (furtherFrom (ofLevels n) .comparison _)).andThen
      (furtherFrom (ofLevels n) .conjunction _)).andThen
      (furtherFrom (ofLevels n) .disjunction _)).andThen (branches (ofLevels n)) := rfl
  rw [hformula, hproduct]
  rfl

end Rung

/-- A product whose first factor stands behind minus signs is read as long as neither its signs nor
its further factors use up the levels, and its tree is as high as both together. -/
theorem Formula.parse_negatedProduct {a b : Nat} (ha : a < maxDepth) (hb : b < maxDepth) :
    ∃ f, Formula.parse (String.ofList (productText a b)) = .ok f ∧ f.tree.height = a + b := by
  obtain ⟨ts, hts, hw⟩ := tokensFrom_product a b 0
  obtain ⟨n, hn⟩ : ∃ n, maxDepth = n + 1 := ⟨255, rfl⟩
  have hformula := Rung.formulaOf_product (n := n) (by omega) (by omega) (splits_all_iff.2 hw)
  have htree : treeOfTokens ts = .ok (multiplied (negated (.variable "x") a) b) [] := by
    unfold treeOfTokens Reader.list
    rw [hn]
    show ((((Rung.formulaOf (Rung.ofLevels n)).read ts).andThen _).andThen _) = _
    rw [hformula]
    unfold Reader.more
    rfl
  refine ⟨⟨String.ofList (productText a b), multiplied (negated (.variable "x") a) b⟩, ?_, ?_⟩
  · unfold Formula.parse tokenize
    rw [String.toList_ofList, hts]
    dsimp only
    rw [htree]
  · rw [height_multiplied, height_negated, Tree.height, Nat.zero_add]

/-- Two minus signs and as many further factors as there are levels for: the path to the first
factor has more inner nodes than there are levels. -/
theorem Formula.maxDepth_lt_height : ∃ f,
    Formula.parse (String.ofList (productText 2 255)) = .ok f ∧ maxDepth < f.tree.height := by
  obtain ⟨f, hf, hheight⟩ := parse_negatedProduct (a := 2) (b := 255) (by decide) (by decide)
  refine ⟨f, hf, ?_⟩
  rw [hheight]
  decide

/-- The same formula is nested no deeper than there are levels. -/
theorem Formula.nesting_negatedProduct : ∃ f,
    Formula.parse (String.ofList (productText 2 255)) = .ok f ∧ f.tree.height = 257 ∧
      f.tree.nesting ≤ maxDepth ∧ (f.tree.RightNested → f.tree.height ≤ maxDepth) ∧
      2 * f.tree.height ≤ (maxDepth - 1) * (5 * maxDepth + 6) + 2 := by
  obtain ⟨f, hf, hheight⟩ := parse_negatedProduct (a := 2) (b := 255) (by decide) (by decide)
  exact ⟨f, hf, hheight, nesting_of_parse hf⟩

end NegatedProduct

end MapAlgebra.Expr
