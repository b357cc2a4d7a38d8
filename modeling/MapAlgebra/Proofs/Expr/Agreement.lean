import MapAlgebra.Proofs.Expr.Cursor

/-!
# Runs and outcomes

A run of the cursor agrees with the outcome of a reader if it stays among the tokens and within the
levels, and ends where the reader ends: with the same value in front of the same tokens, or with the
same fault (`Agrees`). There is a rule for each move, for one computation behind another and for
loops. The number of levels that are left is in the type of what is read: `Agrees.descend` goes down
a rung of the ladder with the level that is opened.
-/

namespace MapAlgebra.Expr

variable {α β : Type} {ts rest : List Placed} {low pos level depth : Nat}

/-- A place is that of a token or of the end, and `low` levels are open at least and no more than
there are. -/
structure Within (ts : List Placed) (low pos level : Nat) : Prop where
  /-- The place is not behind the end. -/
  pos_le : pos ≤ ts.length
  /-- So many levels are open. -/
  low_le : low ≤ level
  /-- No more levels are open than there are. -/
  level_le : level ≤ maxDepth

/-- What a run ends with is an outcome of reading: the tokens that are left are those from the last
place, or from the place of the fault, on. -/
inductive Matches (ts : List Placed) (depth : Nat) :
    Except Stop (α × Cursor) → Outcome α → Prop where
  /-- A value; so many levels are open. -/
  | ok (a : α) {pos : Nat} : pos ≤ ts.length →
      Matches ts depth (.ok (a, ⟨pos, depth⟩)) (.ok a (ts.drop pos))
  /-- A fault. -/
  | fault (place : Nat) (cause : Cause) :
      Matches ts depth (.error (.refused place cause)) (.fault (ts.drop place) cause)

/-- A run stays among the tokens and within the levels, and ends with an outcome. -/
structure Agrees (ts : List Placed) (low depth : Nat) (r : Run α) (o : Outcome α) : Prop where
  /-- The cursor stays within. -/
  visited : ∀ c ∈ r.visited, Within ts low c.pos c.depth
  /-- The end. -/
  result : Matches ts depth r.result o

namespace Agrees

open Counting

theorem visit {r : Run α} {o : Outcome α} (hc : Within ts low pos level)
    (h : Agrees ts low depth r o) : Agrees ts low depth (r.visit ⟨pos, level⟩) o :=
  ⟨List.forall_mem_cons.2 ⟨hc, h.visited⟩, h.result⟩

protected theorem pure (a : α) (hpos : pos ≤ ts.length) :
    Agrees ts low depth ((pure a : Counting α) ts ⟨pos, depth⟩) (.ok a (ts.drop pos)) :=
  ⟨nofun, .ok a hpos⟩

protected theorem refuseAt (place : Nat) (cause : Cause) :
    Agrees ts low depth ((refuseAt place cause : Counting α) ts ⟨pos, level⟩)
      (.fault (ts.drop place) cause) :=
  ⟨nofun, .fault place cause⟩

/-- What is done behind a construct is done at the place behind it. -/
protected theorem bind {x : Counting α} {o : Outcome α} {f : α → Counting β}
    {g : α → List Placed → Outcome β} (hx : Agrees ts low level (x ts ⟨pos, level⟩) o)
    (hf : ∀ a pos', pos' ≤ ts.length → o = .ok a (ts.drop pos') →
      Agrees ts low depth (f a ts ⟨pos', level⟩) (g a (ts.drop pos'))) :
    Agrees ts low depth ((x >>= f) ts ⟨pos, level⟩) (o.andThen g) := by
  obtain ⟨hvisited, hresult⟩ := hx
  rw [bind_apply]
  generalize x ts ⟨pos, level⟩ = r at hvisited hresult
  obtain ⟨visited, result⟩ := r
  cases hresult with
  | fault place cause => exact ⟨hvisited, .fault place cause⟩
  | ok a hpos =>
    obtain ⟨hvisited', hresult'⟩ := hf a _ hpos rfl
    exact ⟨List.forall_mem_append.2 ⟨hvisited, hvisited'⟩, hresult'⟩

/-- Behind a refusal nothing is done. -/
protected theorem refuse {f : β → Counting α} (hpos : pos ≤ ts.length) (cause : Cause) :
    Agrees ts low depth ((refuse cause >>= f) ts ⟨pos, level⟩) (.fault (ts.drop pos) cause) := by
  have hrefuse : Agrees ts low level ((refuse cause : Counting β) ts ⟨pos, level⟩)
      (.fault (ts.drop pos) cause) := by
    unfold refuse fromHere
    rw [if_pos hpos]
    exact Agrees.refuseAt pos cause
  exact Agrees.bind (g := fun _ rest => .fault rest cause) hrefuse nofun

/-! ### Moves -/

/-- The word under the cursor is the first of the tokens that are left. -/
protected theorem peek {f : Option Token → Counting α} {o : Outcome α} (hpos : pos ≤ ts.length)
    (h : Agrees ts low depth (f ((ts.drop pos).head?.map (·.token)) ts ⟨pos, level⟩) o) :
    Agrees ts low depth ((peek >>= f) ts ⟨pos, level⟩) o := by
  have hword : wordAt ts pos = some ((ts.drop pos).head?.map (·.token)) := by
    rw [wordAt, if_pos hpos, List.head?_drop]
  rw [bind_apply, peek, hword]
  exact h

theorem lt_length_of_drop {p : Placed} (hdrop : ts.drop pos = p :: rest) :
    pos < ts.length ∧ ts.drop (pos + 1) = rest := by
  constructor
  · refine Nat.lt_of_not_le fun hge => ?_
    rw [List.drop_eq_nil_of_le hge] at hdrop
    cases hdrop
  · rw [← List.tail_drop, hdrop, List.tail_cons]

/-- At the end the cursor stays. -/
theorem advance_end {f : Option Token → Counting α} {o : Outcome α} (hpos : pos ≤ ts.length)
    (hdrop : ts.drop pos = []) (h : Agrees ts low depth (f none ts ⟨pos, level⟩) o) :
    Agrees ts low depth ((advance >>= f) ts ⟨pos, level⟩) o := by
  unfold advance
  rw [bind_assoc]
  refine Agrees.peek hpos ?_
  rw [hdrop]
  exact h

/-- On a token the cursor moves on. -/
protected theorem advance {f : Option Token → Counting α} {o : Outcome α} {p : Placed}
    (hc : Within ts low pos level) (hdrop : ts.drop pos = p :: rest)
    (h : Within ts low (pos + 1) level → ts.drop (pos + 1) = rest →
      Agrees ts low depth (f (some p.token) ts ⟨pos + 1, level⟩) o) :
    Agrees ts low depth ((advance >>= f) ts ⟨pos, level⟩) o := by
  obtain ⟨hlt, hrest⟩ := lt_length_of_drop hdrop
  have hnext : Within ts low (pos + 1) level := ⟨hlt, hc.low_le, hc.level_le⟩
  unfold advance
  rw [bind_assoc]
  refine Agrees.peek hc.pos_le ?_
  rw [hdrop]
  exact (h hnext hrest).visit hnext

protected theorem skip {f : Unit → Counting α} {o : Outcome α} {p : Placed}
    (hc : Within ts low pos level) (hdrop : ts.drop pos = p :: rest)
    (h : Within ts low (pos + 1) level → ts.drop (pos + 1) = rest →
      Agrees ts low depth (f () ts ⟨pos + 1, level⟩) o) :
    Agrees ts low depth ((skip >>= f) ts ⟨pos, level⟩) o := by
  show Agrees ts low depth (((advance >>= fun _ => pure ()) >>= f) ts ⟨pos, level⟩) o
  rw [bind_assoc]
  exact Agrees.advance hc hdrop h

/-- Whether the word under the cursor is a token. -/
protected theorem ifNext {w : Token} {x y : Counting α} {o : Outcome α} (hpos : pos ≤ ts.length)
    (hx : ∀ p rest, ts.drop pos = p :: rest → p.token = w →
      Agrees ts low depth (x ts ⟨pos, level⟩) o)
    (hy : (∀ p ∈ (ts.drop pos).head?, p.token ≠ w) → Agrees ts low depth (y ts ⟨pos, level⟩) o) :
    Agrees ts low depth ((peek >>= fun v => if v = some w then x else y) ts ⟨pos, level⟩) o := by
  refine Agrees.peek hpos ?_
  cases hdrop : ts.drop pos with
  | nil => exact hy (by rw [hdrop]; exact nofun)
  | cons p rest =>
    show Agrees ts low depth ((if some p.token = some w then x else y) ts ⟨pos, level⟩) o
    by_cases hp : p.token = w
    · rw [if_pos (congrArg some hp)]
      exact hx p rest hdrop hp
    · rw [if_neg fun h => hp (Option.some.inj h)]
      refine hy fun q hq => ?_
      rw [hdrop] at hq
      cases hq
      exact hp

theorem ifNext_bind {w : Token} {x y : Counting β} {f : β → Counting α} {o : Outcome α}
    (hpos : pos ≤ ts.length)
    (hx : ∀ p rest, ts.drop pos = p :: rest → p.token = w →
      Agrees ts low depth ((x >>= f) ts ⟨pos, level⟩) o)
    (hy : (∀ p ∈ (ts.drop pos).head?, p.token ≠ w) →
      Agrees ts low depth ((y >>= f) ts ⟨pos, level⟩) o) :
    Agrees ts low depth
      (((peek >>= fun v => if v = some w then x else y) >>= f) ts ⟨pos, level⟩) o := by
  have hf : (fun v : Option Token => (if v = some w then x else y) >>= f) =
      fun v => if v = some w then x >>= f else y >>= f := by
    funext v
    split <;> rfl
  rw [bind_assoc, hf]
  exact Agrees.ifNext hpos hx hy

/-- Whether the token under the cursor is a mark. -/
protected theorem ifMark {m : Mark} {x y : Counting α} {o o' : Outcome α} (hpos : pos ≤ ts.length)
    (hx : ∀ p rest, ts.drop pos = p :: rest → p.token = .mark m →
      Agrees ts low depth (x ts ⟨pos, level⟩) o)
    (hy : Agrees ts low depth (y ts ⟨pos, level⟩) o') :
    Agrees ts low depth ((peek >>= fun v => if v = some (.mark m) then x else y) ts ⟨pos, level⟩)
      (if (ts.drop pos).head?.any (·.token = .mark m) then o else o') := by
  refine Agrees.ifNext hpos (fun p rest hdrop hp => ?_) fun hnot => ?_
  · have hmark : (ts.drop pos).head?.any (·.token = .mark m) := by
      rw [hdrop]
      exact decide_eq_true hp
    rw [if_pos hmark]
    exact hx p rest hdrop hp
  · have hmark : ¬(ts.drop pos).head?.any (·.token = .mark m) := by
      rw [Option.any_eq_true]
      rintro ⟨p, hp, htoken⟩
      exact hnot p hp (of_decide_eq_true htoken)
    rw [if_neg hmark]
    exact hy

/-- A mark that must come next. -/
protected theorem require {m : Mark} {what : Expected} {f : Unit → Counting α}
    {g : Unit → List Placed → Outcome α} (hc : Within ts low pos level)
    (hf : ∀ pos', pos < pos' → Within ts low pos' level →
      Agrees ts low depth (f () ts ⟨pos', level⟩) (g () (ts.drop pos'))) :
    Agrees ts low depth ((require m what >>= f) ts ⟨pos, level⟩)
      ((expect m what (ts.drop pos)).andThen g) := by
  have hrefuse (cause : Cause) : Agrees ts low depth ((refuse cause >>= f) ts ⟨pos, level⟩)
      (.fault (ts.drop pos) cause) := Agrees.refuse hc.pos_le cause
  unfold require
  rw [bind_assoc]
  refine Agrees.peek hc.pos_le ?_
  cases hdrop : ts.drop pos with
  | nil =>
    rw [hdrop] at hrefuse
    exact hrefuse _
  | cons p rest =>
    rw [hdrop] at hrefuse
    show Agrees ts low depth (((if some p.token = some (.mark m) then skip
        else refuse (.expected what (some p.token))) >>= f) ts ⟨pos, level⟩)
      ((if p.token = .mark m then Outcome.ok () rest
        else .fault (p :: rest) (.expected what (some p.token))).andThen g)
    by_cases hp : p.token = .mark m
    · rw [if_pos (congrArg some hp), if_pos hp]
      refine Agrees.skip hc hdrop fun hnext hrest => ?_
      rw [← hrest]
      exact hf _ (Nat.lt_succ_self _) hnext
    · rw [if_neg fun h => hp (Option.some.inj h), if_neg hp]
      exact hrefuse _

/-- Opening a level goes down to the rung below, if there is one. -/
protected theorem descend {f : Unit → Counting α} (o : Rung → Outcome α)
    (hc : Within ts low pos level) (hbottom : o .bottom = .fault (ts.drop pos) .tooDeep)
    (h : Within ts low pos (level + 1) → Agrees ts low depth (f () ts ⟨pos, level + 1⟩)
      (o (.above (.ofLevels (maxDepth - (level + 1)))))) :
    Agrees ts low depth ((descend >>= f) ts ⟨pos, level⟩) (o (.ofLevels (maxDepth - level))) := by
  rw [bind_apply, descend]
  by_cases hlevel : level < maxDepth
  · have hlevels : maxDepth - level = maxDepth - (level + 1) + 1 := by omega
    have hnext : Within ts low pos (level + 1) :=
      ⟨hc.pos_le, Nat.le_succ_of_le hc.low_le, hlevel⟩
    rw [if_pos hlevel, hlevels]
    exact (h hnext).visit hnext
  · have hlevels : maxDepth - level = 0 := by omega
    rw [if_neg hlevel, hlevels]
    show Agrees ts low depth ((refuse .tooDeep >>= f) ts ⟨pos, level⟩) (o .bottom)
    rw [hbottom]
    exact Agrees.refuse hc.pos_le .tooDeep

/-- Levels that have been opened can be closed. -/
protected theorem ascend {f : Unit → Counting α} {o : Outcome α} {levels : Nat}
    (hc : Within ts low pos (level + levels)) (hlow : low ≤ level)
    (h : Agrees ts low depth (f () ts ⟨pos, level⟩) o) :
    Agrees ts low depth ((ascend levels >>= f) ts ⟨pos, level + levels⟩) o := by
  have hnext : Within ts low pos level :=
    ⟨hc.pos_le, hlow, Nat.le_trans (Nat.le_add_right _ _) hc.level_le⟩
  rw [bind_apply, ascend, if_pos (Nat.le_add_left _ _), goTo, Nat.add_sub_cancel]
  exact h.visit hnext

/-! ### Loops -/

variable {σ : Type}

theorem loop_succ_bind (step : σ → Counting (σ ⊕ β)) (f : β → Counting α) (k : Nat) (s : σ) :
    loop step (k + 1) s >>= f = step s >>= Sum.elim (fun s => loop step k s >>= f) f := by
  rw [loop, bind_assoc]
  congr 1
  funext r
  cases r <;> rfl

/-- **Loops**: each step moves on or is the last, so there are no more of them than tokens. As many
levels are open as `levels` says. -/
protected theorem loop {step : σ → Counting (σ ⊕ β)} {f : β → Counting α} {start : Nat}
    (levels : σ → Nat) (o : σ → List Placed → Outcome α)
    (hstep : ∀ (go : σ → Counting α) (s : σ) (pos : Nat), start ≤ pos →
      Within ts low pos (levels s) →
      (∀ s' pos', pos < pos' → Within ts low pos' (levels s') →
        Agrees ts low depth (go s' ts ⟨pos', levels s'⟩) (o s' (ts.drop pos'))) →
      Agrees ts low depth ((step s >>= Sum.elim go f) ts ⟨pos, levels s⟩) (o s (ts.drop pos)))
    {k : Nat} {s : σ} (hk : ts.length - pos < k) (hpos : start ≤ pos)
    (hs : Within ts low pos (levels s)) :
    Agrees ts low depth ((loop step k s >>= f) ts ⟨pos, levels s⟩) (o s (ts.drop pos)) := by
  induction k generalizing s pos with
  | zero => exact absurd hk (Nat.not_lt_zero _)
  | succ k ih =>
    rw [loop_succ_bind]
    refine hstep _ s pos hpos hs fun s' pos' hlt hs' => ih ?_ (by omega) hs'
    have := hs'.pos_le
    omega

end Agrees

end MapAlgebra.Expr
