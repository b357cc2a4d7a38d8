import MapAlgebra.Expr.Eval
import MapAlgebra.Proofs.Value.Alike

/-!
# Probing

A probe evaluates a formula on placeholders and takes both branches of every conditional. The
formula is later evaluated on other values, where each conditional takes one branch only. Main
statement: **`Program.evaluate_of_probe`** says that a probe that succeeds settles the shape of all
later values, and that nothing but an index of `bands` can go wrong later on.

The induction is on the formula. The probe of a part succeeds because the probe of the whole does,
so the induction hypotheses apply to both branches, whichever is taken later.
-/

namespace MapAlgebra.Expr

open Value

namespace Tree

variable {ν : Type}

mutual

/-- The functions a formula calls, repetitions included. -/
def functions : Tree ν → List Function
  | .number _ | .variable _ => []
  | .unary _ operand => operand.functions
  | .binary _ left right => left.functions ++ right.functions
  | .choice condition yes no => condition.functions ++ yes.functions ++ no.functions
  | .call f args => f :: functionsOfAll args
  | .matrix _ _ elements => functionsOfAll elements

/-- The functions a list of formulas calls. -/
def functionsOfAll : List (Tree ν) → List Function
  | [] => []
  | t :: ts => t.functions ++ functionsOfAll ts

end

end Tree

/-- Two lists of slot values that hold values alike at given slots. -/
def AlikeOn (slots : List Nat) (s s' : Array Value) : Prop :=
  ∀ slot ∈ slots, ∃ a a', s[slot]? = some a ∧ s'[slot]? = some a' ∧ Alike a a'

namespace AlikeOn

variable {xs ys : List Nat} {s s' : Array Value}

theorem left (h : AlikeOn (xs ++ ys) s s') : AlikeOn xs s s' :=
  fun slot hx => h slot (List.mem_append_left ys hx)

theorem right (h : AlikeOn (xs ++ ys) s s') : AlikeOn ys s s' :=
  fun slot hy => h slot (List.mem_append_right xs hy)

end AlikeOn

/-- The only fault that may come up after a probe: an index fault of a call of `bands`. -/
def LateFault (functions : List Function) (e : EvalError) : Prop :=
  .bands ∈ functions ∧ e.IsIndexFault

/-- What goes wrong in a part of a formula goes wrong in the formula. -/
theorem LateFault.extend {α : Type} {P : α → Prop} {fs gs : List Function} {x : Except EvalError α}
    (hx : Meets P (LateFault fs) x) (h : fs ⊆ gs) : Meets P (LateFault gs) x :=
  hx.mono (fun _ ha => ha) fun _ he => ⟨h he.1, he.2⟩

/-- Two branches that a probe finds common are alike. -/
theorem commonBranch_eq_ok_iff {yes no v : Value} :
    commonBranch yes no = .ok v ↔ Alike yes no ∧ yes = v := by
  unfold commonBranch
  constructor
  · intro hv
    split at hv
    · next h => cases hv; exact ⟨h, rfl⟩
    · cases hv
  · rintro ⟨h, rfl⟩
    exact if_pos h

/-- Whether cells make up a matrix depends on their number only. -/
theorem ofCells_eq_ok_iff {rows cols : Nat} {cells : List Float} {m : Matrix} :
    Matrix.ofCells rows cols cells = .ok m ↔
      ∃ h : cells.length = rows * cols, m = ⟨rows, cols, cells, h⟩ := by
  unfold Matrix.ofCells Matrix.ofCells?
  constructor
  · intro hm
    by_cases h : cells.length = rows * cols
    · rw [dif_pos h] at hm
      cases hm
      exact ⟨h, rfl⟩
    · rw [dif_neg h] at hm
      cases hm
  · rintro ⟨h, rfl⟩
    rw [dif_pos h]

namespace Tree

variable {s s' : Array Value}

mutual

/-- Whatever values a formula is evaluated on after a probe that succeeded, its value is like the
one the probe found. -/
theorem eval_of_probe (t : Tree Nat) (hs : AlikeOn t.references s s') {v : Value}
    (h : t.eval .both s = .ok v) :
    Meets (Alike v) (LateFault t.functions) (t.eval .selected s') := by
  match t with
  | .number x =>
    cases h
    exact Alike.refl _
  | .variable slot =>
    obtain ⟨a, a', ha, ha', hal⟩ := hs slot (List.mem_singleton.2 rfl)
    simp only [eval, ha] at h
    cases h
    exact Meets.of_ok (by simp only [eval, ha']; rfl) hal
  | .unary op operand =>
    simp only [eval] at h ⊢
    obtain ⟨a, ha, h⟩ := bind_eq_ok_iff.1 h
    cases h
    refine (eval_of_probe operand hs ha).bind fun a' hal => ?_
    exact hal.map _ _
  | .binary op left right =>
    simp only [eval] at h ⊢
    obtain ⟨a, ha, h⟩ := bind_eq_ok_iff.1 h
    obtain ⟨b, hb, h⟩ := bind_eq_ok_iff.1 h
    have hleft := eval_of_probe left hs.left ha
    have hright := eval_of_probe right hs.right hb
    refine (LateFault.extend hleft (List.subset_append_left _ _)).bind fun a' hal => ?_
    refine (LateFault.extend hright (List.subset_append_right _ _)).bind fun b' hbl => ?_
    obtain ⟨v', hv', hvl⟩ := BinaryOp.apply_alike hal hbl h
    exact Meets.of_ok hv' hvl
  | .choice condition yes no =>
    simp only [eval] at h ⊢
    obtain ⟨c, hc, h⟩ := bind_eq_ok_iff.1 h
    obtain ⟨x, hx, h⟩ := bind_eq_ok_iff.1 h
    obtain ⟨a, ha, h⟩ := bind_eq_ok_iff.1 h
    obtain ⟨b, hb, h⟩ := bind_eq_ok_iff.1 h
    obtain ⟨hab, rfl⟩ := commonBranch_eq_ok_iff.1 h
    have hcondition := eval_of_probe condition hs.left.left hc
    have hyes := eval_of_probe yes hs.left.right ha
    have hno := eval_of_probe no hs.right hb
    have hbranches : condition.functions ++ yes.functions ⊆
        (Tree.choice condition yes no).functions := List.subset_append_left _ _
    have hcondition' := LateFault.extend hcondition
      (List.Subset.trans (List.subset_append_left _ _) hbranches)
    refine hcondition'.bind fun c' hcl => ?_
    obtain ⟨y, hy⟩ := hcl.expectScalar hx
    rw [hy]
    -- either branch has a value like the one of the probe
    show Meets _ _ (if truthy y then yes.eval .selected s' else no.eval .selected s')
    split
    · exact LateFault.extend hyes (List.Subset.trans (List.subset_append_right _ _) hbranches)
    · refine LateFault.extend (hno.mono (fun _ hbl => ?_) fun _ he => he)
        (List.subset_append_right _ _)
      exact hab.trans hbl
  | .call f args =>
    simp only [eval] at h ⊢
    obtain ⟨as, has, h⟩ := bind_eq_ok_iff.1 h
    have hargs := evalAll_of_probe args hs has
    refine (LateFault.extend hargs (List.subset_cons_self _ _)).bind fun as' hal => ?_
    refine (Function.apply_alike hal h).mono (fun _ h => h) fun e he => ?_
    exact ⟨List.mem_cons.2 (.inl he.1.symm), he.2⟩
  | .matrix rows cols elements =>
    simp only [eval] at h ⊢
    obtain ⟨xs, hxs, h⟩ := bind_eq_ok_iff.1 h
    obtain ⟨m, hm, h⟩ := bind_eq_ok_iff.1 h
    cases h
    obtain ⟨hlen, rfl⟩ := ofCells_eq_ok_iff.1 hm
    refine (evalElements_of_probe elements hs hxs).bind fun xs' hlen' => ?_
    rw [ofCells_eq_ok_iff.2 ⟨hlen' ▸ hlen, rfl⟩]
    exact ⟨rfl, rfl⟩

theorem evalAll_of_probe (ts : List (Tree Nat)) (hs : AlikeOn (referencesOfAll ts) s s')
    {vs : List Value} (h : evalAll .both s ts = .ok vs) :
    Meets (List.Forall₂ Alike vs) (LateFault (functionsOfAll ts)) (evalAll .selected s' ts) := by
  match ts with
  | [] =>
    cases h
    exact .nil
  | t :: ts =>
    simp only [evalAll] at h ⊢
    obtain ⟨a, ha, h⟩ := bind_eq_ok_iff.1 h
    obtain ⟨as, has, h⟩ := bind_eq_ok_iff.1 h
    cases h
    have hfirst := eval_of_probe t hs.left ha
    have hrest := evalAll_of_probe ts hs.right has
    refine (LateFault.extend hfirst (List.subset_append_left _ _)).bind fun a' hal => ?_
    refine (LateFault.extend hrest (List.subset_append_right _ _)).bind fun as' hals => ?_
    exact .cons hal hals

theorem evalElements_of_probe (ts : List (Tree Nat)) (hs : AlikeOn (referencesOfAll ts) s s')
    {xs : List Float} (h : evalElements .both s ts = .ok xs) :
    Meets (fun ys => xs.length = ys.length) (LateFault (functionsOfAll ts))
      (evalElements .selected s' ts) := by
  match ts with
  | [] =>
    cases h
    exact rfl
  | t :: ts =>
    simp only [evalElements] at h ⊢
    obtain ⟨a, ha, h⟩ := bind_eq_ok_iff.1 h
    obtain ⟨x, hx, h⟩ := bind_eq_ok_iff.1 h
    obtain ⟨xs', hxs, h⟩ := bind_eq_ok_iff.1 h
    cases h
    have hfirst := eval_of_probe t hs.left ha
    have hrest := evalElements_of_probe ts hs.right hxs
    refine (LateFault.extend hfirst (List.subset_append_left _ _)).bind fun a' hal => ?_
    obtain ⟨y, hy⟩ := hal.expectScalar hx
    rw [hy]
    refine (LateFault.extend hrest (List.subset_append_right _ _)).bind fun ys hlen => ?_
    exact congrArg (· + 1) hlen

end

end Tree

namespace Tree

mutual

/-- A probe that succeeds has found a value in every slot the formula refers to. -/
theorem bound_of_probe (t : Tree Nat) {s : Array Value} {v : Value}
    (h : t.eval .both s = .ok v) : ∀ slot ∈ t.references, ∃ a, s[slot]? = some a := by
  match t with
  | .number _ =>
    intro slot hslot
    cases hslot
  | .variable slot =>
    intro slot' hslot
    obtain rfl := List.mem_singleton.1 hslot
    simp only [eval] at h
    split at h
    · next a ha => exact ⟨a, ha⟩
    · cases h
  | .unary _ operand =>
    simp only [eval] at h
    obtain ⟨a, ha, -⟩ := bind_eq_ok_iff.1 h
    exact bound_of_probe operand ha
  | .binary _ left right =>
    simp only [eval] at h
    obtain ⟨a, ha, h⟩ := bind_eq_ok_iff.1 h
    obtain ⟨b, hb, -⟩ := bind_eq_ok_iff.1 h
    have hleft := bound_of_probe left ha
    have hright := bound_of_probe right hb
    exact List.forall_mem_append.2 ⟨hleft, hright⟩
  | .choice condition yes no =>
    simp only [eval] at h
    obtain ⟨a, ha, h⟩ := bind_eq_ok_iff.1 h
    obtain ⟨x, -, h⟩ := bind_eq_ok_iff.1 h
    obtain ⟨b, hb, h⟩ := bind_eq_ok_iff.1 h
    obtain ⟨d, hd, -⟩ := bind_eq_ok_iff.1 h
    have hcondition := bound_of_probe condition ha
    have hyes := bound_of_probe yes hb
    have hno := bound_of_probe no hd
    exact List.forall_mem_append.2 ⟨List.forall_mem_append.2 ⟨hcondition, hyes⟩, hno⟩
  | .call _ args =>
    simp only [eval] at h
    obtain ⟨vs, hvs, -⟩ := bind_eq_ok_iff.1 h
    exact boundAll_of_probe args hvs
  | .matrix _ _ elements =>
    simp only [eval] at h
    obtain ⟨xs, hxs, -⟩ := bind_eq_ok_iff.1 h
    exact boundElements_of_probe elements hxs

theorem boundAll_of_probe (ts : List (Tree Nat)) {s : Array Value} {vs : List Value}
    (h : evalAll .both s ts = .ok vs) : ∀ slot ∈ referencesOfAll ts, ∃ a, s[slot]? = some a := by
  match ts with
  | [] =>
    intro slot hslot
    cases hslot
  | t :: ts =>
    simp only [evalAll] at h
    obtain ⟨a, ha, h⟩ := bind_eq_ok_iff.1 h
    obtain ⟨as, has, -⟩ := bind_eq_ok_iff.1 h
    have hfirst := bound_of_probe t ha
    have hrest := boundAll_of_probe ts has
    exact List.forall_mem_append.2 ⟨hfirst, hrest⟩

theorem boundElements_of_probe (ts : List (Tree Nat)) {s : Array Value} {xs : List Float}
    (h : evalElements .both s ts = .ok xs) :
    ∀ slot ∈ referencesOfAll ts, ∃ a, s[slot]? = some a := by
  match ts with
  | [] =>
    intro slot hslot
    cases hslot
  | t :: ts =>
    simp only [evalElements] at h
    obtain ⟨a, ha, h⟩ := bind_eq_ok_iff.1 h
    obtain ⟨x, -, h⟩ := bind_eq_ok_iff.1 h
    obtain ⟨rest, hrest, -⟩ := bind_eq_ok_iff.1 h
    have hfirst := bound_of_probe t ha
    have hrest := boundElements_of_probe ts hrest
    exact List.forall_mem_append.2 ⟨hfirst, hrest⟩

end

end Tree

/-- **Shape soundness**: when a probe succeeds on values alike at every slot the formula reads, an
evaluation has a value of the shape and kind that the probe found, or it fails on an index of
`bands`, which the formula then calls. -/
theorem Program.evaluate_of_probe (p : Program) {s s' : Array Value} {v : Value}
    (hs : AlikeOn p.slots s s') (h : p.probe s = .ok v) :
    (∃ v', p.evaluate s' = .ok v' ∧ v'.shape = v.shape ∧ v'.isScalar = v.isScalar) ∨
      (.bands ∈ p.tree.functions ∧ ∃ index length,
        p.evaluate s' = .error (.indexOutOfRange (.function .bands) index length)) := by
  have hreads : AlikeOn p.tree.references s s' := fun slot hslot =>
    hs slot (List.mem_eraseDups.2 hslot)
  have hmeets := p.tree.eval_of_probe hreads h
  unfold Program.evaluate
  cases heval : p.tree.eval .selected s' with
  | ok v' =>
    rw [heval] at hmeets
    exact Or.inl ⟨v', rfl, hmeets.1.symm, hmeets.2.symm⟩
  | error e =>
    rw [heval] at hmeets
    obtain ⟨hbands, index, length, rfl⟩ := hmeets
    exact Or.inr ⟨hbands, index, length, rfl⟩

/-- `x ? min({1, 2}, x) : cat(x, y)`, with `x` in slot 0 and `y` in slot 1. -/
def minOrCat : Program :=
  ⟨.choice (.variable 0) (.call (.reduce .min) [.matrix 1 2 [.number 1, .number 2], .variable 0])
    (.call .cat [.variable 0, .variable 1])⟩

/-- On zeros the condition selects the second branch; the probe settles the shape of the first too,
which later values select. -/
theorem evaluate_minOrCat :
    let s := #[Value.scalar 0, .scalar 0]
    let s' := #[Value.scalar 5, .scalar 3]
    let v := Value.row [1, 0]
    AlikeOn minOrCat.slots s s' ∧ minOrCat.probe s = .ok v ∧
      ((∃ v', minOrCat.evaluate s' = .ok v' ∧ v'.shape = v.shape ∧ v'.isScalar = v.isScalar) ∨
        (.bands ∈ minOrCat.tree.functions ∧ ∃ index length,
          minOrCat.evaluate s' = .error (.indexOutOfRange (.function .bands) index length))) := by
  intro s s' v
  have hs : AlikeOn minOrCat.slots s s' := by
    intro slot hslot
    obtain rfl | rfl : slot = 0 ∨ slot = 1 := by
      have : minOrCat.slots = [0, 1] := by decide
      simpa [this] using hslot
    · exact ⟨.scalar 0, .scalar 5, rfl, rfl, alike_scalar _ _⟩
    · exact ⟨.scalar 0, .scalar 3, rfl, rfl, alike_scalar _ _⟩
  have hprobe : minOrCat.probe s = .ok v := by rfl
  exact ⟨hs, hprobe, minOrCat.evaluate_of_probe hs hprobe⟩

end MapAlgebra.Expr
