import MapAlgebra.Proofs.Expr.Agreement
import MapAlgebra.Proofs.Expr.Relocation

/-!
# Descent

Reading with a cursor comes to what the readers come to, and nothing goes wrong on the way. Main
statements: **`Procedure.run_disciplined`** says so of every procedure, from every place and every
number of open levels on, and **`treeOfTokens_eq_ok_iff`** of whole lists of tokens.

Each procedure is shown to agree with its reader, provided the procedures it calls do (`Serves`);
a run is then by induction on its frames. What bounds the frames is `frames`: it counts the tokens
that are left, and as some procedures call others before any token is taken, their `rank`.
-/

namespace MapAlgebra.Expr

variable {α β : Type} {ts rest : List Placed} {low pos level depth : Nat}

/-! ### Outcomes and rows -/

theorem Outcome.andThen_ok (o : Outcome α) : o.andThen .ok = o := by
  cases o <;> rfl

theorem Outcome.map_andThen {γ : Type} (o : Outcome α) (f : α → List Placed → Outcome β)
    (g : β → γ) : (o.andThen f).map g = o.andThen fun a rest => (f a rest).map g := by
  cases o <;> rfl

theorem append_comp_cons (as : List α) (a : α) : (as ++ ·) ∘ (a :: ·) = (as ++ [a] ++ ·) :=
  funext fun bs => List.append_cons as a bs

theorem foldr_consHead (row as : List α) (rows : List (List α)) :
    row.foldr Text.consHead (as :: rows) = (row ++ as) :: rows := by
  induction row with
  | nil => rfl
  | cons a row ih =>
    rw [List.foldr_cons, ih]
    rfl

/-! ### What procedures come to -/

namespace Procedure

/-- What a procedure comes to from a place on: what the readers make of the tokens from there on,
if `level` levels are open. -/
def outcome (ts : List Placed) (pos level : Nat) : Procedure → Outcome (Tree String)
  | .sequence =>
    ((Rung.ofLevels (maxDepth - level)).formula.list .semicolon true (ts.drop pos)).map sequenceTree
  | .ternary => (Rung.ofLevels (maxDepth - level)).formula.read (ts.drop pos)
  | .conditional => (Rung.formulaOf (.ofLevels (maxDepth - level))).read (ts.drop pos)
  | .chain tier tighter =>
    (Rung.chainOf (.ofLevels (maxDepth - level)) (tier :: tighter)).read (ts.drop pos)
  | .unary => Rung.prefixed (.ofLevels (maxDepth - level)) (ts.drop pos)
  | .power => Rung.power (.ofLevels (maxDepth - level)) (ts.drop pos)
  | .primary => Rung.primary (.ofLevels (maxDepth - level)) (ts.drop pos)
  | .call name start =>
    Rung.call (.ofLevels (maxDepth - level)) (ts.drop start) name (ts.drop pos)
  | .matrix start => Rung.matrix (.ofLevels (maxDepth - level)) (ts.drop start) (ts.drop pos)

theorem outcome_ofTiers (tiers : List Tier) : (ofTiers tiers).outcome ts pos level =
    (Rung.chainOf (.ofLevels (maxDepth - level)) tiers).read (ts.drop pos) := by
  cases tiers <;> rfl

/-- Whatever succeeds has taken a token. -/
theorem lt_of_outcome {p : Procedure} {t : Tree String} {pos' : Nat}
    (h : p.outcome ts pos level = .ok t (ts.drop pos')) : pos < pos' := by
  have hlength : (ts.drop pos').length < (ts.drop pos).length := by
    cases p with
    | sequence =>
      obtain ⟨items, hitems, -⟩ := Outcome.map_eq_ok_iff.1 h
      exact Reader.length_of_list hitems
    | ternary => exact Reader.progress _ h
    | conditional => exact Reader.progress _ h
    | chain tier tighter => exact Reader.progress _ h
    | unary => exact Rung.length_of_prefixed h
    | power => exact Rung.length_of_power h
    | primary => exact Rung.length_of_primary h
    | call name start => exact Rung.length_of_call h
    | matrix start => exact Rung.length_of_matrix h
  rw [List.length_drop, List.length_drop] at hlength
  omega

/-- A bound on the procedures that call each other at one place. -/
def rank : Procedure → Nat
  | .primary => 1
  | .power => 2
  | .unary => 3
  | .chain _ tighter => tighter.length + 4
  | .conditional => 9
  | .ternary => 10
  | .sequence | .call .. | .matrix _ => 11

theorem rank_ofTiers_lt (tier : Tier) (tighter : List Tier) :
    (ofTiers tighter).rank < (chain tier tighter).rank := by
  cases tighter <;> exact Nat.lt_succ_self _

/-- As many frames as a procedure may need from a place on. -/
def frames (ts : List Placed) (pos : Nat) (p : Procedure) : Nat :=
  16 * (ts.length - pos) + p.rank

theorem frames_here {p q : Procedure} {n pos' : Nat} (hn : p.frames ts pos ≤ n + 1)
    (hle : pos ≤ pos') (hrank : q.rank < p.rank) : q.frames ts pos' ≤ n := by
  unfold frames at *
  omega

theorem frames_further {p q : Procedure} {n pos' : Nat} (hn : p.frames ts pos ≤ n + 1)
    (hlt : pos < pos') (hpos : pos' ≤ ts.length) (hrank : q.rank ≤ p.rank + 15) :
    q.frames ts pos' ≤ n := by
  unfold frames at *
  omega

theorem lt_of_frames {p : Procedure} {n pos' : Nat} (hn : p.frames ts pos ≤ n + 1)
    (hle : pos ≤ pos') (hrank : 2 ≤ p.rank) : ts.length - pos' < n := by
  unfold frames at *
  omega

end Procedure

/-- Given so many frames, procedures come to what the readers come to. -/
def Serves (ts : List Placed) (n : Nat) (self : Procedure → Counting (Tree String)) : Prop :=
  ∀ {low pos level : Nat} (p : Procedure), Within ts low pos level → p.frames ts pos ≤ n →
    Agrees ts low level (self p ts ⟨pos, level⟩) (p.outcome ts pos level)

namespace Serves

open Counting Procedure

variable {n : Nat} {self : Procedure → Counting (Tree String)}

/-- What is done behind what a procedure reads is done further on, with as many levels open. -/
protected theorem bind (hself : Serves ts n self) (p : Procedure) {f : Tree String → Counting α}
    {g : Tree String → List Placed → Outcome α} (hc : Within ts low pos level)
    (hn : p.frames ts pos ≤ n)
    (hf : ∀ t pos', pos < pos' → Within ts low pos' level →
      Agrees ts low depth (f t ts ⟨pos', level⟩) (g t (ts.drop pos'))) :
    Agrees ts low depth ((self p >>= f) ts ⟨pos, level⟩) ((p.outcome ts pos level).andThen g) :=
  (hself p hc hn).bind fun t pos' hpos' hok =>
    hf t pos' (lt_of_outcome hok) ⟨hpos', hc.low_le, hc.level_le⟩

/-! ### Each procedure -/

section

variable (hself : Serves ts n self)

include hself

theorem ternaryBody (hc : Within ts low pos level)
    (hn : Procedure.ternary.frames ts pos ≤ n + 1) :
    Agrees ts low level (ternaryBody self ts ⟨pos, level⟩)
      (Procedure.ternary.outcome ts pos level) := by
  refine Agrees.descend (fun r => r.formula.read (ts.drop pos)) hc rfl fun hnext => ?_
  rw [← Outcome.andThen_ok (Reader.read _ _)]
  exact hself.bind .conditional hnext (frames_here hn (Nat.le_refl _) (by decide))
    fun t pos' _ hpos' => Agrees.ascend hpos' hc.low_le (Agrees.pure t hpos'.pos_le)

theorem conditionalBody (hc : Within ts low pos level)
    (hn : Procedure.conditional.frames ts pos ≤ n + 1) :
    Agrees ts low level (conditionalBody self ts ⟨pos, level⟩)
      (Procedure.conditional.outcome ts pos level) := by
  have hrank : (ofTiers Tier.all).rank < Procedure.conditional.rank := by decide
  have hbranch {pos' : Nat} (hlt : pos < pos') (hpos' : pos' ≤ ts.length) :
      Procedure.ternary.frames ts pos' ≤ n := frames_further hn hlt hpos' (by decide)
  refine hself.bind (ofTiers Tier.all) (g := Rung.branches (.ofLevels (maxDepth - level))) hc
    (frames_here hn (Nat.le_refl _) hrank) fun condition pos₁ hlt₁ hpos₁ => ?_
  refine Agrees.ifNext hpos₁.pos_le (fun p rest hdrop hp => ?_) fun hnot => ?_
  · rw [hdrop, Rung.branches, if_pos hp]
    refine Agrees.skip hpos₁ hdrop fun hpos₂ hrest => ?_
    rw [← hrest]
    have hlt₂ : pos < pos₁ + 1 := Nat.lt_succ_of_lt hlt₁
    refine hself.bind .ternary hpos₂ (hbranch hlt₂ hpos₂.pos_le) fun yes pos₃ hlt₃ hpos₃ => ?_
    refine Agrees.require hpos₃ fun pos₄ hlt₄ hpos₄ => ?_
    have hlt : pos < pos₄ := Nat.lt_trans (Nat.lt_trans hlt₂ hlt₃) hlt₄
    refine hself.bind .ternary hpos₄ (hbranch hlt hpos₄.pos_le) fun no pos₅ _ hpos₅ => ?_
    exact Agrees.pure _ hpos₅.pos_le
  · have hbranches : Rung.branches (.ofLevels (maxDepth - level)) condition (ts.drop pos₁) =
        .ok condition (ts.drop pos₁) := by
      unfold Rung.branches
      split
      · next h => rw [h]
      · next p rest h => exact if_neg (hnot p (by rw [h]; rfl))
    rw [hbranches]
    exact Agrees.pure condition hpos₁.pos_le

/-- A further operator of a chain. As many levels are open as at the start of the chain, and one for
each operator. -/
theorem chainStep {tier : Tier} {tighter : List Tier} {start : Nat} {s : Tree String × Nat}
    {go : Tree String × Nat → Counting (Tree String)} (hlow : low ≤ level)
    (hn : (Procedure.chain tier tighter).frames ts start ≤ n + 1) (hpos : start ≤ pos)
    (hc : Within ts low pos (level + s.2))
    (hgo : ∀ s' pos', pos < pos' → Within ts low pos' (level + s'.2) →
      Agrees ts low level (go s' ts ⟨pos', level + s'.2⟩)
        (Rung.furtherFrom (.ofLevels (maxDepth - (level + s'.2))) tier tighter s'.1
          (ts.drop pos'))) :
    Agrees ts low level ((chainStep self tier tighter s >>=
        Sum.elim go fun s => ascend s.2 >>= fun _ => pure s.1) ts ⟨pos, level + s.2⟩)
      (Rung.furtherFrom (.ofLevels (maxDepth - (level + s.2))) tier tighter s.1 (ts.drop pos)) := by
  have hdone : Agrees ts low level ((ascend s.2 >>= fun _ => pure s.1) ts ⟨pos, level + s.2⟩)
      (.ok s.1 (ts.drop pos)) := Agrees.ascend hc hlow (Agrees.pure s.1 hc.pos_le)
  unfold Procedure.chainStep
  rw [bind_assoc]
  refine Agrees.peek hc.pos_le ?_
  cases hdrop : ts.drop pos with
  | nil =>
    rw [hdrop] at hdone
    exact hdone
  | cons p rest =>
    unfold Rung.furtherFrom
    simp only [List.head?_cons, Option.map_some, Option.bind_some]
    cases hop : Rung.tierOp? tier p.token with
    | none =>
      rw [hdrop] at hdone
      exact hdone
    | some op =>
      simp only [bind_assoc, pure_bind, Sum.elim_inl]
      refine Agrees.skip hc hdrop fun hnext hrest => ?_
      rw [← hrest]
      -- The level opened here is closed at the end of the chain, by `hdone` in the last step.
      refine Agrees.descend (fun r => ((r.chain tighter).read (ts.drop (pos + 1))).andThen
        fun right rest => r.further tier tighter (.binary op s.1 right) rest) hnext rfl
        fun hdeeper => ?_
      have hright : (ofTiers tighter).frames ts (pos + 1) ≤ n :=
        frames_further hn (Nat.lt_succ_of_le hpos) hnext.pos_le
          (Nat.le_add_right_of_le (Nat.le_of_lt (rank_ofTiers_lt tier tighter)))
      show Agrees ts low level _ (((Rung.chainOf (.ofLevels (maxDepth - (level + s.2 + 1)))
        tighter).read (ts.drop (pos + 1))).andThen fun right => Rung.furtherFrom
          (.ofLevels (maxDepth - (level + s.2 + 1))) tier tighter (.binary op s.1 right))
      rw [← outcome_ofTiers]
      exact hself.bind (ofTiers tighter) hdeeper hright fun right pos' hlt hpos' =>
        hgo (.binary op s.1 right, s.2 + 1) pos' (Nat.lt_of_succ_lt hlt) hpos'

theorem chainBody {tier : Tier} {tighter : List Tier} (hc : Within ts low pos level)
    (hn : (Procedure.chain tier tighter).frames ts pos ≤ n + 1) :
    Agrees ts low level (chainBody self n tier tighter ts ⟨pos, level⟩)
      ((Procedure.chain tier tighter).outcome ts pos level) := by
  show Agrees ts low level _ (((Rung.chainOf (.ofLevels (maxDepth - level)) tighter).read
    (ts.drop pos)).andThen (Rung.furtherFrom (.ofLevels (maxDepth - level)) tier tighter))
  rw [← outcome_ofTiers]
  refine hself.bind (ofTiers tighter) hc
    (frames_here hn (Nat.le_refl _) (rank_ofTiers_lt tier tighter)) fun left pos' hlt hpos' => ?_
  have hle : pos ≤ pos' := Nat.le_of_lt hlt
  refine Agrees.loop (s := (left, 0)) (fun s => level + s.2)
    (fun s => Rung.furtherFrom (.ofLevels (maxDepth - (level + s.2))) tier tighter s.1)
    (fun go s pos'' hle' hc' hgo => ?_)
    (lt_of_frames hn hle (Nat.le_add_left 2 (tighter.length + 2))) (Nat.le_refl _) hpos'
  exact hself.chainStep hc.low_le hn (Nat.le_trans hle hle') hc' hgo

/-- The operand of an operator that has been seen. -/
theorem operandOf {p : Placed} (make : Tree String → Tree String) (hc : Within ts low pos level)
    (hdrop : ts.drop pos = p :: rest) (hn : Procedure.unary.frames ts (pos + 1) ≤ n) :
    Agrees ts low level (operandOf self make ts ⟨pos, level⟩)
      (((Rung.ofLevels (maxDepth - level)).operand.read rest).map make) := by
  refine Agrees.skip hc hdrop fun hnext hrest => ?_
  rw [← hrest]
  refine Agrees.descend (fun r => (r.operand.read (ts.drop (pos + 1))).map make) hnext rfl
    fun hdeeper => ?_
  refine hself.bind .unary hdeeper hn fun operand pos' _ hpos' => ?_
  exact Agrees.ascend hpos' hc.low_le (Agrees.pure _ hpos'.pos_le)

omit hself in
theorem prefixed_of_plus {inner : Rung} {p : Placed} (hp : p.token = .operator .add) :
    Rung.prefixed inner (p :: rest) = Rung.prefixed inner rest := by
  have hplus : Rung.isPlus p := decide_eq_true hp
  unfold Rung.prefixed
  rw [List.dropWhile_cons_of_pos hplus]

omit hself in
theorem prefixed_of_ne {inner : Rung} {p : Placed} (hp : p.token ≠ .operator .add) :
    Rung.prefixed inner (p :: rest) = (Rung.prefixOp? p.token).elim
      (Rung.power inner (p :: rest)) fun op => (inner.operand.read rest).map (.unary op) := by
  have hplus : ¬Rung.isPlus p := fun h => hp (of_decide_eq_true h)
  unfold Rung.prefixed
  rw [List.dropWhile_cons_of_neg hplus]
  dsimp only
  cases Rung.prefixOp? p.token with
  | none => rfl
  | some op => rfl

theorem signedBody {start : Nat} (hn : Procedure.unary.frames ts start ≤ n + 1) (hle : start ≤ pos)
    (hc : Within ts low pos level) (hplus : ∀ p ∈ (ts.drop pos).head?, p.token ≠ .operator .add) :
    Agrees ts low level (signedBody self ts ⟨pos, level⟩)
      (Rung.prefixed (.ofLevels (maxDepth - level)) (ts.drop pos)) := by
  have hpower := hself .power hc (frames_here hn hle (by decide))
  refine Agrees.peek hc.pos_le ?_
  cases hdrop : ts.drop pos with
  | nil =>
    unfold Procedure.outcome at hpower
    rw [hdrop] at hpower
    exact hpower
  | cons p rest =>
    rw [prefixed_of_ne (hplus p (by rw [hdrop]; rfl))]
    simp only [List.head?_cons, Option.map_some, Option.bind_some]
    cases hop : Rung.prefixOp? p.token with
    | none =>
      unfold Procedure.outcome at hpower
      rw [hdrop] at hpower
      exact hpower
    | some op =>
      exact hself.operandOf (.unary op) hc hdrop (frames_further hn (Nat.lt_succ_of_le hle)
        (Agrees.lt_length_of_drop hdrop).1 (by decide))

theorem unaryBody (hc : Within ts low pos level) (hn : Procedure.unary.frames ts pos ≤ n + 1) :
    Agrees ts low level (unaryBody self n ts ⟨pos, level⟩)
      (Procedure.unary.outcome ts pos level) := by
  refine Agrees.loop (s := ()) (fun _ => level)
    (fun _ => Rung.prefixed (.ofLevels (maxDepth - level))) (fun go _ pos' hle hc' hgo => ?_)
    (lt_of_frames hn (Nat.le_refl _) (by decide)) (Nat.le_refl _) hc
  refine Agrees.ifNext_bind hc'.pos_le (fun p rest hdrop hp => ?_) fun hnot => ?_
  · rw [hdrop, prefixed_of_plus hp, bind_assoc]
    refine Agrees.skip hc' hdrop fun hnext hrest => ?_
    rw [pure_bind, ← hrest]
    exact hgo () (pos' + 1) (Nat.lt_succ_self _) hnext
  · rw [pure_bind]
    exact hself.signedBody hn hle hc' hnot

theorem powerBody (hc : Within ts low pos level) (hn : Procedure.power.frames ts pos ≤ n + 1) :
    Agrees ts low level (powerBody self ts ⟨pos, level⟩)
      (Procedure.power.outcome ts pos level) := by
  refine hself.bind .primary (g := Rung.exponent (.ofLevels (maxDepth - level))) hc
    (frames_here hn (Nat.le_refl _) (by decide)) fun base pos' hlt hpos' => ?_
  have hbase : Agrees ts low level ((pure base : Counting (Tree String)) ts ⟨pos', level⟩)
      (.ok base (ts.drop pos')) := Agrees.pure base hpos'.pos_le
  refine Agrees.peek hpos'.pos_le ?_
  cases hdrop : ts.drop pos' with
  | nil =>
    rw [hdrop] at hbase
    exact hbase
  | cons p rest =>
    unfold Rung.exponent
    simp only [List.head?_cons, Option.map_some, Option.bind_some]
    cases hop : Rung.powerOp? p.token with
    | none =>
      rw [hdrop] at hbase
      exact hbase
    | some op =>
      exact hself.operandOf (.binary op base) hpos' hdrop (frames_further hn (Nat.lt_succ_of_lt hlt)
        (Agrees.lt_length_of_drop hdrop).1 (by decide))

theorem primaryBody (hc : Within ts low pos level) (hn : Procedure.primary.frames ts pos ≤ n + 1) :
    Agrees ts low level (primaryBody self ts ⟨pos, level⟩)
      (Procedure.primary.outcome ts pos level) := by
  have hfault (cause : Cause) {pos' : Nat} : Agrees ts low level
      ((refuseAt pos cause : Counting (Tree String)) ts ⟨pos', level⟩)
      (.fault (ts.drop pos) cause) := Agrees.refuseAt pos cause
  unfold Procedure.primaryBody fromHere Procedure.outcome
  rw [if_pos hc.pos_le]
  cases hdrop : ts.drop pos with
  | nil =>
    rw [hdrop] at hfault
    exact Agrees.advance_end hc.pos_le hdrop (hfault _)
  | cons p rest =>
    refine Agrees.advance hc hdrop fun hnext hrest => ?_
    rw [hdrop] at hfault
    unfold Rung.primary
    dsimp only
    cases htoken : p.token with
    | number x =>
      rw [← hrest]
      exact Agrees.pure _ hnext.pos_le
    | name name =>
      subst hrest
      dsimp only
      refine Agrees.ifMark hnext.pos_le (fun q rest' hdrop' hq => ?_) (Agrees.pure _ hnext.pos_le)
      refine Agrees.skip hnext hdrop' fun hnext' hrest' => ?_
      have hcall := hself (.call name pos) hnext' (frames_further hn
        (Nat.lt_succ_of_lt (Nat.lt_succ_self _)) hnext'.pos_le (show 11 ≤ 16 by decide))
      rw [Procedure.outcome, hdrop, hrest', hdrop'] at hcall
      rw [hdrop']
      exact hcall
    | operator op => exact hfault _
    | mark m =>
      have hframes {q : Procedure} (hq : q.rank ≤ 16) : q.frames ts (pos + 1) ≤ n :=
        frames_further hn (Nat.lt_succ_self _) hnext.pos_le hq
      cases m with
      | leftParen =>
        rw [← hrest]
        refine hself.bind .ternary hnext (hframes (by decide)) fun group pos' _ hpos' => ?_
        exact Agrees.require hpos' fun pos'' _ hpos'' => Agrees.pure group hpos''.pos_le
      | leftBrace =>
        have hmatrix := hself (.matrix pos) hnext (hframes (show 11 ≤ 16 by decide))
        rw [Procedure.outcome, hdrop, hrest] at hmatrix
        exact hmatrix
      | _ => exact hfault _

/-- A further argument of a call, and what follows. -/
theorem argumentStep {args : List (Tree String)}
    {go : List (Tree String) → Counting (List (Tree String))}
    (hn : Procedure.ternary.frames ts pos ≤ n) (hc : Within ts low pos level)
    (hgo : ∀ args' pos', pos < pos' → Within ts low pos' level →
      Agrees ts low level (go args' ts ⟨pos', level⟩)
        (((Rung.ofLevels (maxDepth - level)).formula.list .comma false (ts.drop pos')).map
          (args' ++ ·))) :
    Agrees ts low level ((argumentStep self args >>= Sum.elim go pure) ts ⟨pos, level⟩)
      (((Rung.ofLevels (maxDepth - level)).formula.list .comma false (ts.drop pos)).map
        (args ++ ·)) := by
  unfold Procedure.argumentStep Reader.list
  rw [bind_assoc, Outcome.map_andThen]
  refine hself.bind .ternary hc hn fun t pos' hlt hpos' => ?_
  rw [Outcome.map_map]
  refine Agrees.ifNext_bind hpos'.pos_le (fun p rest hdrop hp => ?_) fun hnot => ?_
  · rw [bind_assoc, hdrop, Reader.more_cons, if_pos hp]
    refine Agrees.skip hpos' hdrop fun hnext hrest => ?_
    have hmore := hgo (args ++ [t]) (pos' + 1) (Nat.lt_succ_of_lt hlt) hnext
    rw [hrest] at hmore
    rw [pure_bind, append_comp_cons]
    exact hmore
  · rw [Reader.more_of_ne hnot, pure_bind]
    exact Agrees.pure (args ++ [t]) hpos'.pos_le

theorem arguments {name : String} {start : Nat} (hc : Within ts low pos level)
    (hn : (Procedure.call name start).frames ts pos ≤ n + 1) :
    Agrees ts low level (arguments self n ts ⟨pos, level⟩)
      (Rung.arguments (.ofLevels (maxDepth - level)) (ts.drop pos)) := by
  refine Agrees.ifMark hc.pos_le (fun p rest hdrop hp => Agrees.pure [] hc.pos_le) ?_
  rw [← bind_pure (loop _ _ _), ← Outcome.andThen_ok (Reader.list _ _ _ _)]
  refine Agrees.loop (s := []) (fun _ => level) (fun args rest =>
    ((Rung.ofLevels (maxDepth - level)).formula.list .comma false rest).map (args ++ ·))
    (fun go args pos' hle hc' hgo => ?_)
    (lt_of_frames hn (Nat.le_refl _) (show 2 ≤ 11 by decide)) (Nat.le_refl _) hc
  exact hself.argumentStep (frames_here hn hle (show 10 < 11 by decide)) hc' hgo

/-- A call, after the opening parenthesis. -/
theorem callBody {name : String} {start : Nat} (hc : Within ts low pos level)
    (hn : (Procedure.call name start).frames ts pos ≤ n + 1) :
    Agrees ts low level (callBody self n name start ts ⟨pos, level⟩)
      ((Procedure.call name start).outcome ts pos level) := by
  rw [Procedure.outcome]
  unfold Procedure.callBody Rung.call
  cases hlookup : Function.lookup name with
  | none => exact Agrees.refuseAt start _
  | some f =>
    refine (hself.arguments hc hn).bind fun args pos' hpos' _ => ?_
    refine Agrees.require ⟨hpos', hc.low_le, hc.level_le⟩ fun pos'' _ hpos'' => ?_
    split
    · exact Agrees.pure _ hpos''.pos_le
    · exact Agrees.refuseAt start _

/-- A further element of a matrix, and what follows. -/
theorem elementStep {s : List (List (Tree String)) × List (Tree String)}
    {go : List (List (Tree String)) × List (Tree String) → Counting (List (List (Tree String)))}
    (hn : Procedure.ternary.frames ts pos ≤ n) (hc : Within ts low pos level)
    (hgo : ∀ s' pos', pos < pos' → Within ts low pos' level →
      Agrees ts low level (go s' ts ⟨pos', level⟩)
        (((Rung.ofLevels (maxDepth - level)).formula.rows (ts.drop pos')).map
          fun rows => s'.1 ++ s'.2.foldr Text.consHead rows)) :
    Agrees ts low level ((elementStep self s >>= Sum.elim go pure) ts ⟨pos, level⟩)
      (((Rung.ofLevels (maxDepth - level)).formula.rows (ts.drop pos)).map
        fun rows => s.1 ++ s.2.foldr Text.consHead rows) := by
  have hrefuse {place : Nat} (hplace : place ≤ ts.length) (cause : Cause) :
      Agrees ts low level ((refuse cause >>= Sum.elim go pure) ts ⟨place, level⟩)
        (.fault (ts.drop place) cause) := Agrees.refuse hplace cause
  unfold Procedure.elementStep
  rw [bind_assoc, Reader.rows_eq, Outcome.map_andThen]
  refine hself.bind .ternary hc hn fun t pos' hlt hpos' => ?_
  rw [bind_assoc]
  cases hdrop : ts.drop pos' with
  | nil =>
    have hend := hrefuse hpos'.pos_le (.expected .elementsEnd none)
    rw [hdrop] at hend
    exact Agrees.advance_end hpos'.pos_le hdrop hend
  | cons p rest =>
    -- The token behind an element is taken first, so a fault is reported behind it.
    refine Agrees.advance hpos' hdrop fun hnext hrest => ?_
    have hother := hrefuse hnext.pos_le
    have hmore (s') := hgo s' (pos' + 1) (Nat.lt_succ_of_lt hlt) hnext
    rw [hrest] at hother hmore
    dsimp only
    cases htoken : p.token with
    | mark m =>
      cases m with
      | comma =>
        have hcomma := hmore (s.1, s.2 ++ [t])
        simp only [List.foldr_append] at hcomma
        rw [pure_bind, Outcome.map_map]
        exact hcomma
      | semicolon =>
        have hsemicolon := hmore (s.1 ++ [s.2 ++ [t]], [])
        simp only [List.append_assoc, List.foldr_nil, List.singleton_append] at hsemicolon
        rw [pure_bind, Outcome.map_map]
        simp only [Function.comp_def, foldr_consHead]
        exact hsemicolon
      | rightBrace =>
        rw [pure_bind, ← hrest]
        show Agrees _ _ _ _ (.ok (s.1 ++ s.2.foldr Text.consHead [[t]]) _)
        rw [foldr_consHead]
        exact Agrees.pure _ hnext.pos_le
      | _ => exact hother _
    | _ => exact hother _

/-- A matrix, after the opening brace. -/
theorem matrixBody {start : Nat} (hc : Within ts low pos level)
    (hn : (Procedure.matrix start).frames ts pos ≤ n + 1) :
    Agrees ts low level (matrixBody self n start ts ⟨pos, level⟩)
      ((Procedure.matrix start).outcome ts pos level) := by
  refine Agrees.ifMark hc.pos_le (fun p rest hdrop hp => Agrees.refuseAt start _) ?_
  have hrows : Agrees ts low level
      (loop (Procedure.elementStep self) n ([], []) ts ⟨pos, level⟩)
      ((Rung.ofLevels (maxDepth - level)).formula.rows (ts.drop pos)) := by
    rw [← bind_pure (loop _ _ _), ← Outcome.andThen_ok (Reader.rows _ _)]
    refine Agrees.loop (s := ([], [])) (fun _ => level) (fun s rest =>
      ((Rung.ofLevels (maxDepth - level)).formula.rows rest).map
        fun rows => s.1 ++ s.2.foldr Text.consHead rows) (fun go s pos' hle hc' hgo => ?_)
      (lt_of_frames hn (Nat.le_refl _) (show 2 ≤ 11 by decide)) (Nat.le_refl _) hc
    exact hself.elementStep (frames_here hn hle (show 10 < 11 by decide)) hc' hgo
  refine hrows.bind fun rows pos' hpos' _ => ?_
  cases Rung.matrixOfRows? rows with
  | some t => exact Agrees.pure t hpos'
  | none => exact Agrees.refuseAt start _

/-- A further formula of a sequence, and what follows. -/
theorem sequenceStep {items : List (Tree String)}
    {go : List (Tree String) → Counting (Tree String)} {start : Nat}
    (hn : Procedure.sequence.frames ts start ≤ n + 1) (hle : start ≤ pos)
    (hc : Within ts low pos level)
    (hgo : ∀ items' pos', pos < pos' → Within ts low pos' level →
      Agrees ts low level (go items' ts ⟨pos', level⟩)
        (((Rung.ofLevels (maxDepth - level)).formula.more .semicolon true (ts.drop pos')).map
          fun more => sequenceTree (items' ++ more))) :
    Agrees ts low level ((sequenceStep self items >>=
        Sum.elim go fun items => pure (sequenceTree items)) ts ⟨pos, level⟩)
      (((Rung.ofLevels (maxDepth - level)).formula.more .semicolon true (ts.drop pos)).map
        fun more => sequenceTree (items ++ more)) := by
  have hdone {pos' : Nat} (hpos' : pos' ≤ ts.length) : Agrees ts low level
      ((pure (sequenceTree items) : Counting (Tree String)) ts ⟨pos', level⟩)
      (.ok (sequenceTree (items ++ [])) (ts.drop pos')) := by
    rw [List.append_nil]
    exact Agrees.pure _ hpos'
  refine Agrees.ifNext_bind hc.pos_le (fun p rest hdrop hp => ?_) fun hnot => ?_
  · rw [bind_assoc, hdrop, Reader.more_cons, if_pos hp]
    refine Agrees.skip hc hdrop fun hnext hrest => ?_
    have hlast := hdone hnext.pos_le
    rw [bind_assoc]
    refine Agrees.peek hnext.pos_le ?_
    rw [hrest] at hlast ⊢
    cases rest with
    | nil => exact hlast
    | cons q rest =>
      have hnone : ¬(q :: rest).head?.map (·.token) = none := nofun
      have hempty : ¬(true && (q :: rest).isEmpty) = true := nofun
      rw [if_neg hnone, bind_assoc, if_neg hempty, Outcome.map_andThen, ← hrest]
      refine hself.bind .ternary hnext (frames_here hn (Nat.le_succ_of_le hle) (by decide))
        fun t pos' hlt hpos' => ?_
      rw [pure_bind, Outcome.map_map]
      have hmore := hgo (items ++ [t]) pos' (Nat.lt_of_succ_lt hlt) hpos'
      simp only [List.append_assoc, List.singleton_append] at hmore
      exact hmore
  · rw [Reader.more_of_ne hnot, pure_bind]
    exact hdone hc.pos_le

theorem sequenceBody (hc : Within ts low pos level)
    (hn : Procedure.sequence.frames ts pos ≤ n + 1) :
    Agrees ts low level (sequenceBody self n ts ⟨pos, level⟩)
      (Procedure.sequence.outcome ts pos level) := by
  rw [Procedure.outcome, Reader.list, Outcome.map_andThen]
  refine hself.bind .ternary hc (frames_here hn (Nat.le_refl _) (by decide))
    fun first pos' hlt hpos' => ?_
  have hle : pos ≤ pos' := Nat.le_of_lt hlt
  rw [Outcome.map_map]
  refine Agrees.loop (s := [first]) (fun _ => level) (fun items rest =>
    ((Rung.ofLevels (maxDepth - level)).formula.more .semicolon true rest).map
      fun more => sequenceTree (items ++ more)) (fun go items pos'' hle' hc' hgo => ?_)
    (lt_of_frames hn hle (by decide)) (Nat.le_refl _) hpos'
  exact hself.sequenceStep hn (Nat.le_trans hle hle') hc' hgo

theorem body : Serves ts (n + 1) (body self n) := fun p hc hn =>
  match p with
  | .sequence => hself.sequenceBody hc hn
  | .ternary => hself.ternaryBody hc hn
  | .conditional => hself.conditionalBody hc hn
  | .chain _ _ => hself.chainBody hc hn
  | .unary => hself.unaryBody hc hn
  | .power => hself.powerBody hc hn
  | .primary => hself.primaryBody hc hn
  | .call _ _ => hself.callBody hc hn
  | .matrix _ => hself.matrixBody hc hn

end

/-- Procedures come to what the readers come to. -/
theorem run (ts : List Placed) : ∀ n, Serves ts n (run n)
  | 0 => fun p _ hn => by
    have hrank : 0 < p.rank := by cases p <;> exact Nat.succ_pos _
    unfold frames at hn
    omega
  | n + 1 => body (run ts n)

end Serves

/-! ### The state of a reading -/

namespace Procedure

open Counting

variable {p : Procedure} {n : Nat}

theorem run_agrees (hpos : pos ≤ ts.length) (hdepth : depth ≤ maxDepth)
    (hn : p.frames ts pos ≤ n) :
    Agrees ts depth depth (p.run n ts ⟨pos, depth⟩) (p.outcome ts pos depth) :=
  Serves.run ts n p ⟨hpos, Nat.le_refl _, hdepth⟩ hn

theorem run_eq_ok_iff {t : Tree String} {pos' : Nat} (hpos : pos ≤ ts.length)
    (hdepth : depth ≤ maxDepth) (hn : p.frames ts pos ≤ n) :
    (p.run n ts ⟨pos, depth⟩).result = .ok (t, ⟨pos', depth⟩) ↔
      pos' ≤ ts.length ∧ p.outcome ts pos depth = .ok t (ts.drop pos') := by
  have hresult := (run_agrees hpos hdepth hn).result
  generalize (p.run n ts ⟨pos, depth⟩).result = r at hresult
  generalize p.outcome ts pos depth = o at hresult
  cases hresult with
  | fault place cause => exact ⟨nofun, nofun⟩
  | @ok a mid hmid =>
    constructor
    · rintro ⟨⟩
      exact ⟨hmid, rfl⟩
    · rintro ⟨hpos', h⟩
      injection h with ht hdrop
      have hlength := congrArg List.length hdrop
      rw [List.length_drop, List.length_drop] at hlength
      have hmid' : mid = pos' := by omega
      rw [ht, hmid']

/-- What has been read is read again where the same words come, whatever the frames. -/
theorem run_again {ts' : List Placed} {pos' n' k : Nat} {t : Tree String}
    (hpos : pos ≤ ts.length) (hpos' : pos' ≤ ts'.length) (hdepth : depth ≤ maxDepth)
    (hn : p.frames ts pos ≤ n) (hn' : p.frames ts' pos' ≤ n')
    (hwords : ∀ i ≤ k, wordAt ts' (pos' + i) = wordAt ts (pos + i))
    (h : (p.run n ts ⟨pos, depth⟩).result = .ok (t, ⟨pos + k, depth⟩)) :
    (p.run n' ts' ⟨pos', depth⟩).result = .ok (t, ⟨pos' + k, depth⟩) := by
  -- Locality compares two runs of as many frames, and more frames than needed change no result.
  have hmax : p.frames ts pos ≤ max n n' := Nat.le_trans hn (Nat.le_max_left _ _)
  have hmax' : p.frames ts' pos' ≤ max n n' := Nat.le_trans hn' (Nat.le_max_right _ _)
  rw [run_eq_ok_iff hpos hdepth hn, ← run_eq_ok_iff hpos hdepth hmax] at h
  have hagain := ((local_run (.refl p) (max n n')).again h).2 ts' pos' fun i hi =>
    hwords i (Nat.le_of_add_le_add_left hi)
  rw [Nat.add_sub_cancel_left, run_eq_ok_iff hpos' hdepth hmax'] at hagain
  rw [run_eq_ok_iff hpos' hdepth hn']
  exact hagain

/-- **Discipline**: started at a token or at the end, with no more levels open than there are, a
procedure ends without calling deeper or looping longer than `frames` says. On its way the cursor is
never behind the end, no more levels are open than there are, and no fewer than at the start. It
either refuses the formula, as the readers do, or reads what they read: then it has taken a token,
and as many levels are open as at the start. What it accepts it accepts wherever the same words
come, up to the one behind them, and as many levels are open. -/
theorem run_disciplined (p : Procedure) (ts : List Placed) {pos depth n : Nat}
    (hpos : pos ≤ ts.length) (hdepth : depth ≤ maxDepth) (hn : p.frames ts pos ≤ n) :
    (∀ c ∈ (p.run n ts ⟨pos, depth⟩).visited,
      c.pos ≤ ts.length ∧ depth ≤ c.depth ∧ c.depth ≤ maxDepth) ∧
    ((∃ place cause, (p.run n ts ⟨pos, depth⟩).result = .error (.refused place cause) ∧
        p.outcome ts pos depth = .fault (ts.drop place) cause) ∨
      ∃ t k, 0 < k ∧ pos + k ≤ ts.length ∧
        (p.run n ts ⟨pos, depth⟩).result = .ok (t, ⟨pos + k, depth⟩) ∧
        p.outcome ts pos depth = .ok t (ts.drop (pos + k))) ∧
    ∀ (ts' : List Placed) (pos' n' : Nat), pos' ≤ ts'.length → p.frames ts' pos' ≤ n' →
      ∀ (t : Tree String) (k : Nat), (∀ i ≤ k, wordAt ts' (pos' + i) = wordAt ts (pos + i)) →
        ((p.run n' ts' ⟨pos', depth⟩).result = .ok (t, ⟨pos' + k, depth⟩) ↔
          (p.run n ts ⟨pos, depth⟩).result = .ok (t, ⟨pos + k, depth⟩)) := by
  obtain ⟨hvisited, hresult⟩ := run_agrees hpos hdepth hn
  refine ⟨fun c hc => ⟨(hvisited c hc).pos_le, (hvisited c hc).low_le, (hvisited c hc).level_le⟩,
    ?_, fun ts' pos' n' hpos' hn' t k hwords => ⟨?_, ?_⟩⟩
  · generalize (p.run n ts ⟨pos, depth⟩).result = r at hresult
    generalize ho : p.outcome ts pos depth = o at hresult
    cases hresult with
    | fault place cause => exact .inl ⟨place, cause, rfl, rfl⟩
    | @ok t mid hmid =>
      have hlt : pos < mid := lt_of_outcome ho
      obtain ⟨k, rfl⟩ := Nat.exists_eq_add_of_le (Nat.le_of_lt hlt)
      exact .inr ⟨t, k, by omega, hmid, rfl, rfl⟩
  · exact run_again hpos' hpos hdepth hn' hn fun i hi => (hwords i hi).symm
  · exact run_again hpos hpos' hdepth hn hn' hwords

/-- A number in parentheses where one level is left, and the same behind a minus sign. -/
theorem run_disciplined_group :
    (∀ c ∈ (primary.run 49 [⟨.mark .leftParen, 0⟩, ⟨.number 1, 1⟩, ⟨.mark .rightParen, 2⟩]
      ⟨0, 255⟩).visited, c.pos ≤ 3 ∧ 255 ≤ c.depth ∧ c.depth ≤ 256) ∧
    (primary.run 49 [⟨.mark .leftParen, 0⟩, ⟨.number 1, 1⟩, ⟨.mark .rightParen, 2⟩]
      ⟨0, 255⟩).result = .ok (.number 1, ⟨3, 255⟩) ∧
    (primary.run 49 [⟨.operator .subtract, 0⟩, ⟨.mark .leftParen, 1⟩, ⟨.number 1, 2⟩,
      ⟨.mark .rightParen, 3⟩] ⟨1, 255⟩).result = .ok (.number 1, ⟨4, 255⟩) := by
  obtain ⟨hvisited, -, hagain⟩ := @run_disciplined primary
    [⟨.mark .leftParen, 0⟩, ⟨.number 1, 1⟩, ⟨.mark .rightParen, 2⟩]
    0 255 49 (by decide) (by decide) (by decide)
  have hread : (primary.run 49 [⟨.mark .leftParen, 0⟩, ⟨.number 1, 1⟩, ⟨.mark .rightParen, 2⟩]
      ⟨0, 255⟩).result = .ok (.number 1, ⟨3, 255⟩) := rfl
  refine ⟨hvisited, hread, ?_⟩
  refine (hagain [⟨.operator .subtract, 0⟩, ⟨.mark .leftParen, 1⟩, ⟨.number 1, 2⟩,
    ⟨.mark .rightParen, 3⟩] 1 49 (by decide) (by decide) (.number 1) 3 fun i hi => ?_).2 hread
  match i with
  | 0 | 1 | 2 | 3 => rfl
  | i + 4 => omega

end Procedure

/-- Tokens are a formula if the procedure for sequences reads them from the first one to the end. -/
theorem treeOfTokens_eq_ok_iff {n : Nat} {t : Tree String}
    (hn : Procedure.sequence.frames ts 0 ≤ n) : treeOfTokens ts = .ok t [] ↔
      (Procedure.sequence.run n ts ⟨0, 0⟩).result = .ok (t, ⟨ts.length, 0⟩) := by
  rw [Procedure.run_eq_ok_iff (Nat.zero_le _) (Nat.zero_le _) hn, List.drop_length,
    Procedure.outcome, List.drop_zero]
  unfold treeOfTokens
  constructor
  · intro h
    obtain ⟨items, mid, hitems, h⟩ := Outcome.andThen_eq_ok_iff.1 h
    cases mid with
    | nil =>
      cases h
      exact ⟨Nat.le_refl _, Outcome.map_eq_ok_iff.2 ⟨items, hitems, rfl⟩⟩
    | cons p rest => cases h
  · rintro ⟨-, h⟩
    obtain ⟨items, hitems, rfl⟩ := Outcome.map_eq_ok_iff.1 h
    exact Outcome.andThen_eq_ok_iff.2 ⟨items, [], hitems, rfl⟩

end MapAlgebra.Expr
