import MapAlgebra.Expr.Basic

/-!
# Reading with a cursor

The readers of formulas pass on the tokens that are left, and how many levels are left is built into
them. This module reads the same grammar with a cursor: a place among the tokens, the one behind the
last of which is the end, and the number of levels that are open. Each construct is a `Procedure`
that moves the cursor and calls others. Here it could go wrong in ways that readers cannot: look at
a place behind the end, close more levels than are open, leave a level open, or call on and on,
which is why a run is given a number of frames.

Main statement: **`Procedure.local_run`**. What a procedure reads, it reads wherever the same words
come up to the one behind it, and as many levels are open.
-/

namespace MapAlgebra.Expr

/-! ### Runs -/

/-- A place among the tokens of a formula and the number of levels that are open. -/
structure Cursor where
  /-- The place. -/
  pos : Nat
  /-- The number of open levels. -/
  depth : Nat
  deriving DecidableEq

/-- Why a run has no value. -/
inductive Stop where
  /-- The formula is refused: the place of the fault and what is wrong. -/
  | refused (place : Nat) (cause : Cause)
  /-- A place behind the end was looked at. -/
  | outside
  /-- More levels were closed than were open. -/
  | underflow
  /-- There were not enough frames. -/
  | starved

/-- The cursors that a run goes through, and its value with the last cursor. -/
structure Run (α : Type) where
  /-- Every place the cursor was moved to. -/
  visited : List Cursor
  /-- The value and the cursor at the end. -/
  result : Except Stop (α × Cursor)

namespace Run

variable {α β γ : Type}

/-- Go on with the value and the cursor. -/
def andThen (r : Run α) (f : α → Cursor → Run β) : Run β :=
  match r.result with
  | .ok (a, c) => ⟨r.visited ++ (f a c).visited, (f a c).result⟩
  | .error e => ⟨r.visited, .error e⟩

/-- A run that begins with a move. -/
def visit (c : Cursor) (r : Run α) : Run α := ⟨c :: r.visited, r.result⟩

theorem andThen_ok (r : Run α) : (r.andThen fun a c => ⟨[], .ok (a, c)⟩) = r := by
  obtain ⟨visited, result⟩ := r
  cases result with
  | error e => rfl
  | ok p => simp only [andThen, List.append_nil]

theorem andThen_assoc (r : Run α) (f : α → Cursor → Run β) (g : β → Cursor → Run γ) :
    (r.andThen f).andThen g = r.andThen fun a c => (f a c).andThen g := by
  obtain ⟨visited, result⟩ := r
  cases result with
  | error e => rfl
  | ok p =>
    simp only [andThen]
    cases (f p.1 p.2).result with
    | error e => rfl
    | ok q => simp only [List.append_assoc]

end Run

/-- A computation that moves a cursor over tokens. -/
def Counting (α : Type) : Type := List Placed → Cursor → Run α

namespace Counting

variable {α β γ σ : Type}

instance : Monad Counting where
  pure a := fun _ c => ⟨[], .ok (a, c)⟩
  bind x f := fun ts c => (x ts c).andThen fun a c => f a ts c

theorem bind_apply (x : Counting α) (f : α → Counting β) (ts : List Placed) (c : Cursor) :
    (x >>= f) ts c = (x ts c).andThen fun a c => f a ts c := rfl

protected theorem id_map (x : Counting α) : id <$> x = x := by
  funext ts c
  exact (x ts c).andThen_ok

protected theorem bind_assoc (x : Counting α) (f : α → Counting β) (g : β → Counting γ) :
    x >>= f >>= g = x >>= fun a => f a >>= g :=
  funext fun ts => funext fun c => Run.andThen_assoc (x ts c) _ _

instance : LawfulMonad Counting :=
  .mk' Counting Counting.id_map (fun _ _ => rfl) Counting.bind_assoc

/-! ### Moves -/

/-- The word at a place; there is one at every place up to the end, and the one at the end is
`none`. -/
def wordAt (ts : List Placed) (i : Nat) : Option (Option Token) :=
  if i ≤ ts.length then some (ts[i]?.map (·.token)) else none

/-- Stop without a value. -/
def halt (e : Stop) : Counting α := fun _ _ => ⟨[], .error e⟩

/-- The word under the cursor. -/
def peek : Counting (Option Token) := fun ts c =>
  match wordAt ts c.pos with
  | some w => ⟨[], .ok (w, c)⟩
  | none => ⟨[], .error .outside⟩

/-- Move the cursor. -/
def goTo (f : Cursor → Cursor) : Counting Unit := fun _ c => ⟨[f c], .ok ((), f c)⟩

/-- Take the word under the cursor, and move on if it is not the end. -/
def advance : Counting (Option Token) := do
  match ← peek with
  | none => return none
  | some t =>
    goTo fun c => ⟨c.pos + 1, c.depth⟩
    return some t

/-- Move on from the word under the cursor, if it is not the end. -/
def skip : Counting Unit := discard advance

/-- Go on, knowing the place of the cursor. -/
def fromHere (f : Nat → Counting α) : Counting α := fun ts c =>
  if c.pos ≤ ts.length then f c.pos ts c else ⟨[], .error .outside⟩

/-- Refuse the formula at a place that has been passed. -/
def refuseAt (place : Nat) (cause : Cause) : Counting α := halt (.refused place cause)

/-- Refuse the formula at the cursor. -/
def refuse (cause : Cause) : Counting α := fromHere fun here => refuseAt here cause

/-- Take the mark `m`, which must come next; `what` names it in the fault. -/
def require (m : Mark) (what : Expected) : Counting Unit := do
  let w ← peek
  if w = some (.mark m) then skip else refuse (.expected what w)

/-- Open a level, if there is one left. -/
def descend : Counting Unit := fun ts c =>
  if c.depth < maxDepth then goTo (fun c => ⟨c.pos, c.depth + 1⟩) ts c else refuse .tooDeep ts c

/-- Close levels. -/
def ascend (levels : Nat) : Counting Unit := fun ts c =>
  if levels ≤ c.depth then goTo (fun c => ⟨c.pos, c.depth - levels⟩) ts c
  else halt .underflow ts c

/-- Take steps until one of them gives a value. -/
def loop (step : σ → Counting (σ ⊕ β)) : Nat → σ → Counting β
  | 0, _ => halt .starved
  | n + 1, s => do
    match ← step s with
    | .inl s => loop step n s
    | .inr b => return b

end Counting

/-! ### Procedures -/

/-- The constructs that are read. -/
inductive Procedure where
  /-- Formulas apart by semicolons. -/
  | sequence
  /-- A formula one level deeper. -/
  | ternary
  /-- A chain of any operators, and the branches it may decide between. -/
  | conditional
  /-- A chain of operators of a tier, over operands of tighter tiers. -/
  | chain (tier : Tier) (tighter : List Tier)
  /-- Prefix operators before a power. -/
  | unary
  /-- A primary and the power it may be raised to. -/
  | power
  /-- A number, a name, a call, a group or a matrix. -/
  | primary
  /-- A call, after the opening parenthesis, and the place of its name. -/
  | call (name : String) (start : Nat)
  /-- A matrix, after the opening brace, and the place of the brace. -/
  | matrix (start : Nat)

namespace Procedure

open Counting

/-- What the operands of the loosest of given tiers are: chains, or under the tightest tier prefix
operators and powers. -/
def ofTiers : List Tier → Procedure
  | [] => .unary
  | tier :: tighter => .chain tier tighter

section Bodies

variable (self : Procedure → Counting (Tree String)) (n : Nat)

/-- A further formula of a sequence, unless the semicolon before it is the last word. -/
def sequenceStep (items : List (Tree String)) :
    Counting (List (Tree String) ⊕ List (Tree String)) := do
  if (← peek) = some (.mark .semicolon) then
    skip
    if (← peek) = none then return .inr items
    else return .inl (items ++ [← self .ternary])
  else return .inr items

/-- Formulas apart by semicolons. -/
def sequenceBody : Counting (Tree String) := do
  let first ← self .ternary
  return sequenceTree (← loop (sequenceStep self) n [first])

/-- A formula one level deeper. -/
def ternaryBody : Counting (Tree String) := do
  descend
  let t ← self .conditional
  ascend 1
  return t

/-- A chain of any operators, and the branches it may decide between. -/
def conditionalBody : Counting (Tree String) := do
  let condition ← self (ofTiers Tier.all)
  if (← peek) = some (.mark .question) then
    skip
    let yes ← self .ternary
    require .colon .choiceColon
    let no ← self .ternary
    return .choice condition yes no
  else return condition

/-- A further operator of a chain and its right operand, one level deeper; levels are counted. -/
def chainStep (tier : Tier) (tighter : List Tier) (s : Tree String × Nat) :
    Counting (Tree String × Nat ⊕ Tree String × Nat) := do
  match (← peek).bind (Rung.tierOp? tier) with
  | some op =>
    skip
    descend
    let right ← self (ofTiers tighter)
    return .inl (.binary op s.1 right, s.2 + 1)
  | none => return .inr s

/-- A chain of operators of a tier. All levels that it has opened are closed at once. -/
def chainBody (tier : Tier) (tighter : List Tier) : Counting (Tree String) := do
  let left ← self (ofTiers tighter)
  let (t, levels) ← loop (chainStep self tier tighter) n (left, 0)
  ascend levels
  return t

/-- A plus sign, which changes nothing. -/
def plusStep (_ : Unit) : Counting (Unit ⊕ Unit) := do
  if (← peek) = some (.operator .add) then
    skip
    return .inl ()
  else return .inr ()

/-- The operand of an operator, one level deeper. -/
def operandOf (make : Tree String → Tree String) : Counting (Tree String) := do
  skip
  descend
  let operand ← self .unary
  ascend 1
  return make operand

/-- A prefix operator and its operand, or a power. -/
def signedBody : Counting (Tree String) := do
  match (← peek).bind Rung.prefixOp? with
  | some op => operandOf self (.unary op)
  | none => self .power

/-- Prefix operators before a power. -/
def unaryBody : Counting (Tree String) := do
  loop plusStep n ()
  signedBody self

/-- A primary and the power it may be raised to. -/
def powerBody : Counting (Tree String) := do
  let base ← self .primary
  match (← peek).bind Rung.powerOp? with
  | some op => operandOf self (.binary op base)
  | none => return base

/-- A number, a name, a call, a group or a matrix. -/
def primaryBody : Counting (Tree String) :=
  fromHere fun start => do
    match ← advance with
    | none => refuseAt start .unexpectedEnd
    | some (.number x) => return .number x
    | some (.name name) =>
      if (← peek) = some (.mark .leftParen) then
        skip
        self (.call name start)
      else return Rung.nameTree name
    | some (.mark .leftParen) =>
      let t ← self .ternary
      require .rightParen .closingParen
      return t
    | some (.mark .leftBrace) => self (.matrix start)
    | some other => refuseAt start (Rung.misplaced other)

/-- A further argument, and whether another one follows. -/
def argumentStep (args : List (Tree String)) :
    Counting (List (Tree String) ⊕ List (Tree String)) := do
  let t ← self .ternary
  if (← peek) = some (.mark .comma) then
    skip
    return .inl (args ++ [t])
  else return .inr (args ++ [t])

/-- The arguments of a call. -/
def arguments : Counting (List (Tree String)) := do
  if (← peek) = some (.mark .rightParen) then return []
  else loop (argumentStep self) n []

/-- A call, after the opening parenthesis. -/
def callBody (name : String) (start : Nat) : Counting (Tree String) := do
  match Function.lookup name with
  | none => refuseAt start (.unknownFunction name)
  | some f =>
    let args ← arguments self n
    require .rightParen .argumentsEnd
    if f.arity.accepts args.length then return .call f args
    else refuseAt start (.argumentCount name f.arity args.length)

/-- A further element, put to the rows that are done and the one that is not, and what follows. -/
def elementStep (s : List (List (Tree String)) × List (Tree String)) :
    Counting (List (List (Tree String)) × List (Tree String) ⊕ List (List (Tree String))) := do
  let t ← self .ternary
  let row := s.2 ++ [t]
  match ← advance with
  | some (.mark .comma) => return .inl (s.1, row)
  | some (.mark .semicolon) => return .inl (s.1 ++ [row], [])
  | some (.mark .rightBrace) => return .inr (s.1 ++ [row])
  | other => refuse (.expected .elementsEnd other)

/-- A matrix, after the opening brace. -/
def matrixBody (start : Nat) : Counting (Tree String) := do
  if (← peek) = some (.mark .rightBrace) then refuseAt start .emptyMatrix
  else
    match Rung.matrixOfRows? (← loop (elementStep self) n ([], [])) with
    | some t => return t
    | none => refuseAt start .raggedMatrix

/-- What a procedure does, given what the procedures it calls do; no loop takes more than `n`
steps. -/
def body : Procedure → Counting (Tree String)
  | .sequence => sequenceBody self n
  | .ternary => ternaryBody self
  | .conditional => conditionalBody self
  | .chain tier tighter => chainBody self n tier tighter
  | .unary => unaryBody self n
  | .power => powerBody self
  | .primary => primaryBody self
  | .call name start => callBody self n name start
  | .matrix start => matrixBody self n start

end Bodies

/-- A procedure with so many frames: calls are nested no deeper, and no loop takes more steps. -/
def run : Nat → Procedure → Counting (Tree String)
  | 0, _ => halt .starved
  | n + 1, p => body (run n) n p

end Procedure

/-! ### What a run depends on -/

namespace Counting

variable {α β σ : Type}

/-- What one computation reads, the other one reads wherever the same words come, up to the one
behind what is read, and as many levels are open. -/
structure Local (x x' : Counting α) : Prop where
  /-- The cursor does not go back, and the other computation moves as far. -/
  again : ∀ {ts : List Placed} {c : Cursor} {a : α} {b : Cursor}, (x ts c).result = .ok (a, b) →
    c.pos ≤ b.pos ∧ ∀ (ts' : List Placed) (pos : Nat),
      (∀ i, c.pos + i ≤ b.pos → wordAt ts' (pos + i) = wordAt ts (c.pos + i)) →
      (x' ts' ⟨pos, c.depth⟩).result = .ok (a, ⟨pos + (b.pos - c.pos), b.depth⟩)

namespace Local

protected theorem pure (a : α) : Local (pure a) (pure a) where
  again h := by
    cases h
    exact ⟨Nat.le_refl _, fun ts' pos _ => by rw [Nat.sub_self]; rfl⟩

protected theorem halt (e : Stop) (x : Counting α) : Local (halt e) x where
  again := nofun

/-- What is read first ends where the rest begins, and the words up to there are among those up to
the end of the whole. -/
protected theorem bind {x x' : Counting α} {f f' : α → Counting β} (hx : Local x x')
    (hf : ∀ a, Local (f a) (f' a)) : Local (x >>= f) (x' >>= f') where
  again {ts c a b} h := by
    rw [bind_apply, Run.andThen] at h
    split at h
    · next a' mid hmid =>
      obtain ⟨hle, hagain⟩ := hx.again hmid
      obtain ⟨hle', hagain'⟩ := (hf a').again h
      refine ⟨Nat.le_trans hle hle', fun ts' pos hwords => ?_⟩
      have hfirst := hagain ts' pos fun i hi => hwords i (Nat.le_trans hi hle')
      have hrest := hagain' ts' (pos + (mid.pos - c.pos)) fun i hi => by
        have hword := hwords (mid.pos - c.pos + i) (by omega)
        rwa [← Nat.add_assoc, ← Nat.add_assoc, Nat.add_sub_cancel' hle] at hword
      have hplaces : mid.pos - c.pos + (b.pos - mid.pos) = b.pos - c.pos := by omega
      rw [Nat.add_assoc, hplaces] at hrest
      rw [bind_apply, Run.andThen, hfirst]
      exact hrest
    · cases h

protected theorem peek : Local peek peek where
  again {ts c a b} h := by
    unfold peek at h
    split at h
    · next hword =>
      cases h
      refine ⟨Nat.le_refl _, fun ts' pos hwords => ?_⟩
      have hsame : wordAt ts' pos = _ := (hwords 0 (Nat.le_refl _)).trans hword
      rw [peek, Nat.sub_self]
      simp only [hsame]
      rfl
    · cases h

/-- A move on that does not look where it goes. -/
protected theorem goTo (k : Nat) (f : Nat → Nat) :
    Local (goTo fun c => ⟨c.pos + k, f c.depth⟩) (goTo fun c => ⟨c.pos + k, f c.depth⟩) where
  again h := by
    cases h
    refine ⟨Nat.le_add_right _ _, fun ts' pos _ => ?_⟩
    rw [Nat.add_sub_cancel_left]
    rfl

protected theorem advance : Local advance advance := by
  refine Local.peek.bind fun w => ?_
  cases w with
  | none => exact .pure none
  | some t => exact (Local.goTo 1 id).bind fun _ => .pure (some t)

protected theorem skip : Local skip skip := Local.advance.bind fun _ => .pure ()

protected theorem fromHere {f f' : Nat → Counting α}
    (h : ∀ here here', Local (f here) (f' here')) : Local (fromHere f) (fromHere f') where
  again {ts c a b} hrun := by
    unfold fromHere at hrun
    split at hrun
    · next hpos =>
      have hle := ((h c.pos c.pos).again hrun).1
      refine ⟨hle, fun ts' pos hwords => ?_⟩
      have hpos' : pos ≤ ts'.length := by
        have hword := hwords 0 hle
        unfold wordAt at hword
        rw [Nat.add_zero, Nat.add_zero, if_pos hpos] at hword
        split at hword
        · assumption
        · cases hword
      rw [fromHere, if_pos hpos']
      exact ((h c.pos pos).again hrun).2 ts' pos hwords
    · cases hrun

protected theorem refuse (cause : Cause) : Local (refuse cause : Counting α) (refuse cause) :=
  .fromHere fun _ _ => .halt _ _

protected theorem require (m : Mark) (what : Expected) :
    Local (require m what) (require m what) := by
  refine Local.peek.bind fun w => ?_
  split
  · exact .skip
  · exact .refuse _

protected theorem descend : Local descend descend where
  again {ts c a b} h := by
    unfold descend at h
    split at h
    · next hdepth =>
      cases h
      refine ⟨Nat.le_refl _, fun ts' pos _ => ?_⟩
      rw [descend, if_pos hdepth, Nat.sub_self]
      rfl
    · unfold refuse fromHere at h
      split at h <;> cases h

protected theorem ascend (levels : Nat) : Local (ascend levels) (ascend levels) where
  again {ts c a b} h := by
    unfold ascend at h
    split at h
    · next hdepth =>
      cases h
      refine ⟨Nat.le_refl _, fun ts' pos _ => ?_⟩
      rw [ascend, if_pos hdepth, Nat.sub_self]
      rfl
    · cases h

protected theorem loop {step step' : σ → Counting (σ ⊕ β)} (hstep : ∀ s, Local (step s) (step' s))
    (n : Nat) (s : σ) : Local (loop step n s) (loop step' n s) := by
  induction n generalizing s with
  | zero => exact .halt _ _
  | succ n ih =>
    refine (hstep s).bind fun r => ?_
    cases r with
    | inl s => exact ih s
    | inr b => exact .pure b

end Local
end Counting

namespace Procedure

open Counting

/-- Two procedures that are one but for a place to report faults at. -/
inductive Like : Procedure → Procedure → Prop where
  /-- One procedure. -/
  | refl (p : Procedure) : Like p p
  /-- Calls of one name. -/
  | call (name : String) (start start' : Nat) : Like (.call name start) (.call name start')
  /-- Matrices. -/
  | matrix (start start' : Nat) : Like (.matrix start) (.matrix start')

section

variable {self self' : Procedure → Counting (Tree String)}
  (hself : ∀ {p p'}, Like p p' → Local (self p) (self' p')) (n : Nat)

include hself

theorem local_sequenceStep (items : List (Tree String)) :
    Local (sequenceStep self items) (sequenceStep self' items) := by
  refine Local.peek.bind fun w => ?_
  split
  · refine Local.skip.bind fun _ => Local.peek.bind fun w => ?_
    split
    · exact .pure _
    · exact (hself (.refl _)).bind fun _ => .pure _
  · exact .pure _

theorem local_sequenceBody : Local (sequenceBody self n) (sequenceBody self' n) :=
  (hself (.refl _)).bind fun _ =>
    (Local.loop (local_sequenceStep hself) n _).bind fun _ => .pure _

theorem local_ternaryBody : Local (ternaryBody self) (ternaryBody self') :=
  Local.descend.bind fun _ => (hself (.refl _)).bind fun _ =>
    (Local.ascend 1).bind fun _ => .pure _

theorem local_conditionalBody : Local (conditionalBody self) (conditionalBody self') := by
  refine (hself (.refl _)).bind fun condition => Local.peek.bind fun w => ?_
  split
  · refine Local.skip.bind fun _ => (hself (.refl _)).bind fun yes => ?_
    exact (Local.require _ _).bind fun _ => (hself (.refl _)).bind fun no => .pure _
  · exact .pure _

theorem local_chainStep (tier : Tier) (tighter : List Tier) (s : Tree String × Nat) :
    Local (chainStep self tier tighter s) (chainStep self' tier tighter s) := by
  refine Local.peek.bind fun w => ?_
  split
  · refine Local.skip.bind fun _ => Local.descend.bind fun _ => ?_
    exact (hself (.refl _)).bind fun _ => .pure _
  · exact .pure _

theorem local_chainBody (tier : Tier) (tighter : List Tier) :
    Local (chainBody self n tier tighter) (chainBody self' n tier tighter) :=
  (hself (.refl _)).bind fun _ =>
    (Local.loop (local_chainStep hself tier tighter) n _).bind fun s => (Local.ascend s.2).bind fun _ => .pure _

omit hself in
theorem local_plusStep (s : Unit) : Local (plusStep s) (plusStep s) := by
  refine Local.peek.bind fun w => ?_
  split
  · exact Local.skip.bind fun _ => .pure _
  · exact .pure _

theorem local_operandOf (make : Tree String → Tree String) :
    Local (operandOf self make) (operandOf self' make) :=
  Local.skip.bind fun _ => Local.descend.bind fun _ =>
    (hself (.refl _)).bind fun _ => (Local.ascend 1).bind fun _ => .pure _

theorem local_signedBody : Local (signedBody self) (signedBody self') := by
  refine Local.peek.bind fun w => ?_
  split
  · exact local_operandOf hself _
  · exact hself (.refl _)

theorem local_unaryBody : Local (unaryBody self n) (unaryBody self' n) :=
  (Local.loop local_plusStep n ()).bind fun _ => local_signedBody hself

theorem local_powerBody : Local (powerBody self) (powerBody self') := by
  refine (hself (.refl _)).bind fun _ => Local.peek.bind fun w => ?_
  split
  · exact local_operandOf hself _
  · exact .pure _

theorem local_primaryBody : Local (primaryBody self) (primaryBody self') := by
  refine .fromHere fun start start' => Local.advance.bind fun w => ?_
  split
  · exact .halt _ _
  · exact .pure _
  · refine Local.peek.bind fun w => ?_
    split
    · exact Local.skip.bind fun _ => hself (.call _ _ _)
    · exact .pure _
  · exact (hself (.refl _)).bind fun _ => (Local.require _ _).bind fun _ => .pure _
  · exact hself (.matrix _ _)
  · exact .halt _ _

theorem local_argumentStep (args : List (Tree String)) :
    Local (argumentStep self args) (argumentStep self' args) := by
  refine (hself (.refl _)).bind fun t => Local.peek.bind fun w => ?_
  split
  · exact Local.skip.bind fun _ => .pure _
  · exact .pure _

theorem local_arguments : Local (arguments self n) (arguments self' n) := by
  refine Local.peek.bind fun w => ?_
  split
  · exact .pure _
  · exact .loop (local_argumentStep hself) n _

theorem local_callBody (name : String) (start start' : Nat) :
    Local (callBody self n name start) (callBody self' n name start') := by
  unfold callBody
  split
  · exact .halt _ _
  · refine (local_arguments hself n).bind fun args => (Local.require _ _).bind fun _ => ?_
    split
    · exact .pure _
    · exact .halt _ _

theorem local_elementStep (s : List (List (Tree String)) × List (Tree String)) :
    Local (elementStep self s) (elementStep self' s) := by
  refine (hself (.refl _)).bind fun t => Local.advance.bind fun w => ?_
  split
  · exact .pure _
  · exact .pure _
  · exact .pure _
  · exact .refuse _

theorem local_matrixBody (start start' : Nat) :
    Local (matrixBody self n start) (matrixBody self' n start') := by
  refine Local.peek.bind fun w => ?_
  split
  · exact .halt _ _
  · refine (Local.loop (local_elementStep hself) n _).bind fun rows => ?_
    split
    · exact .pure _
    · exact .halt _ _

theorem local_body {p p' : Procedure} (h : Like p p') :
    Local (body self n p) (body self' n p') := by
  cases h with
  | call name start start' => exact local_callBody hself n name start start'
  | matrix start start' => exact local_matrixBody hself n start start'
  | refl =>
    cases p with
    | sequence => exact local_sequenceBody hself n
    | ternary => exact local_ternaryBody hself
    | conditional => exact local_conditionalBody hself
    | chain tier tighter => exact local_chainBody hself n tier tighter
    | unary => exact local_unaryBody hself n
    | power => exact local_powerBody hself
    | primary => exact local_primaryBody hself
    | call name start => exact local_callBody hself n name start start
    | matrix start => exact local_matrixBody hself n start start

end

/-- **Locality**: what a procedure reads, it reads wherever the same words come, up to the one
behind what is read, and as many levels are open. What comes before makes no difference. -/
theorem local_run {p p' : Procedure} (h : Like p p') : ∀ n, Local (run n p) (run n p')
  | 0 => .halt _ _
  | n + 1 => local_body (fun h => local_run h n) n h

end Procedure

end MapAlgebra.Expr
