import MapAlgebra.Proofs.Expr.Soundness
import MapAlgebra.Proofs.Result

/-!
# Readers are complete

Whatever derives from the grammar is read as the tree that the derivation denotes, unless it is
nested too deeply. Together with soundness this gives the main statement
**`Formula.parse_iff_sequence`**: reading a text and deriving its tokens come to the same.

A reader sees one token beyond what it takes, so what it does with the words of a phrase depends on
how the rest begins. `Reads` says, for each phrase, what the rest may begin with and what the reader
then does; for a chain, whose left part grows while it is read, that is to go on with what follows
the left part. There is one lemma for each production of the grammar, and `reads_of_derives` is the
induction over derivations.
-/

namespace MapAlgebra.Expr

/-! ### Up to depth -/

/-- Two outcomes are the same, unless the first is that of a formula nested too deeply. -/
def Outcome.UpToDepth {α : Type} (o o' : Outcome α) : Prop :=
  o = o' ∨ ∃ place, o = .fault place .tooDeep

namespace Outcome.UpToDepth

variable {α β : Type} {o o' o'' : Outcome α}

theorem trans (h : o.UpToDepth o') (h' : o'.UpToDepth o'') : o.UpToDepth o'' := by
  rcases h with rfl | h
  · exact h'
  · exact Or.inr h

theorem andThen {a : α} {mid : List Placed} {f : α → List Placed → Outcome β} {b : Outcome β}
    (h : o.UpToDepth (.ok a mid)) (hf : (f a mid).UpToDepth b) : (o.andThen f).UpToDepth b := by
  rcases h with rfl | ⟨place, rfl⟩
  · exact hf
  · exact Or.inr ⟨place, rfl⟩

theorem map (f : α → β) (h : o.UpToDepth o') : (o.map f).UpToDepth (o'.map f) := by
  rcases h with rfl | ⟨place, rfl⟩
  · exact Or.inl rfl
  · exact Or.inr ⟨place, rfl⟩

end Outcome.UpToDepth

theorem Outcome.map_map {α β γ : Type} (f : α → β) (g : β → γ) (o : Outcome α) :
    (o.map f).map g = o.map (g ∘ f) := by
  cases o <;> rfl

theorem Outcome.map_append_nil {α : Type} (as : List α) (rest : List Placed) :
    (Outcome.ok [] rest).map (as ++ ·) = .ok as rest := by
  show Outcome.ok (as ++ []) rest = .ok as rest
  rw [List.append_nil]

/-! ### What the rest begins with -/

/-- The marks that may follow a formula. -/
def closers : List Mark := [.colon, .comma, .semicolon, .rightParen, .rightBrace]

/-- The rest is empty or begins with a mark that may follow a formula. -/
def Closed (rest : List Placed) : Prop := ∀ p ∈ rest.head?, ∃ m ∈ closers, p.token = .mark m

/-- The rest does not begin with a parenthesis that would make a name a call. -/
def NoCall (rest : List Placed) : Prop := ∀ p ∈ rest.head?, p.token ≠ .mark .leftParen

/-- The rest does not go on with a power or with an operator of the given tiers. -/
def Ends (tiers : List Tier) (rest : List Placed) : Prop :=
  NoCall rest ∧ ∀ p ∈ rest.head?,
    Rung.powerOp? p.token = none ∧ ∀ tier ∈ tiers, Rung.tierOp? tier p.token = none

variable {tier : Tier} {tiers : List Tier} {p : Placed} {ts rest : List Placed} {t : Tree String}

theorem closed_nil : Closed [] := fun _ h => nomatch h

theorem closed_cons {m : Mark} (hp : p.token = .mark m) (hm : m ∈ closers) : Closed (p :: ts) := by
  intro q hq
  cases hq
  exact ⟨m, hm, hp⟩

theorem ends_nil : Ends tiers [] := by
  constructor
  · intro _ h
    cases h
  · intro _ h
    cases h

theorem ends_cons_mark {m : Mark} (hp : p.token = .mark m) (hm : m ≠ .leftParen) :
    Ends tiers (p :: ts) := by
  refine ⟨fun q hq => ?_, fun q hq => ?_⟩
  · cases hq
    rw [hp]
    exact fun h => hm (Token.mark.inj h)
  · cases hq
    rw [hp]
    exact ⟨rfl, fun _ _ => rfl⟩

theorem Closed.ends (h : Closed rest) : Ends tiers rest := by
  cases rest with
  | nil => exact ends_nil
  | cons p rest =>
    obtain ⟨m, hm, hp⟩ := h p rfl
    refine ends_cons_mark hp ?_
    rintro rfl
    exact absurd hm (by decide)

theorem ends_cons_operator {op : BinaryOp} (hp : p.token = .operator op)
    (htier : op.tier? = some tier) (hnot : tier ∉ tiers) : Ends tiers (p :: ts) := by
  refine ⟨fun q hq => ?_, fun q hq => ?_⟩
  · cases hq
    rw [hp]
    exact fun h => nomatch h
  · cases hq
    rw [hp]
    constructor
    · cases op <;> first | rfl | cases htier
    · intro tier' hmem
      refine if_neg fun h => hnot ?_
      rw [htier] at h
      cases h
      exact hmem

theorem Ends.mono (h : Ends (tier :: tiers) rest) : Ends tiers rest :=
  ⟨h.1, fun p hp => ⟨(h.2 p hp).1, fun tier' htier =>
    (h.2 p hp).2 tier' (List.mem_cons_of_mem _ htier)⟩⟩

namespace Rung

variable {inner : Rung}

theorem exponent_of_ends (h : Ends tiers rest) : exponent inner t rest = .ok t rest := by
  cases rest with
  | nil => rfl
  | cons p rest =>
    unfold exponent
    dsimp only
    rw [(h.2 p rfl).1]

theorem furtherFrom_of_ends (h : Ends (tier :: tiers) rest) :
    furtherFrom inner tier tiers t rest = .ok t rest := by
  cases rest with
  | nil => rfl
  | cons p rest =>
    unfold furtherFrom
    dsimp only
    rw [(h.2 p rfl).2 tier List.mem_cons_self]

theorem branches_of_closed (h : Closed rest) : branches inner t rest = .ok t rest := by
  cases rest with
  | nil => rfl
  | cons p rest =>
    obtain ⟨m, hm, hp⟩ := h p rfl
    have hquestion : p.token ≠ .mark .question := by
      rw [hp]
      rintro ⟨⟩
      exact absurd hm (by decide)
    unfold branches
    dsimp only
    rw [if_neg hquestion]

end Rung

theorem expect_of_mark {m : Mark} {what : Expected} (hp : p.token = .mark m) :
    expect m what (p :: ts) = .ok () ts := by
  unfold expect
  exact if_pos hp

/-! ### What readers do -/

open Rung

/-- What the reader of a phrase does with words of it, whatever levels are left. -/
def Reads : Phrase → List Token → Prop
  | .formula t, w => ∀ n ts rest, Splits ts w rest → Closed rest →
    ((ofLevels n).formula.read ts).UpToDepth (.ok t rest)
  | .chain [] t, w => ∀ n ts rest, Splits ts w rest → Ends [] rest →
    (prefixed (ofLevels n) ts).UpToDepth (.ok t rest)
  | .chain (tier :: tiers) t, w => (tier :: tiers).Nodup → ∀ n ts rest, Splits ts w rest →
    Ends tiers rest → ∃ m, ((chainOf (ofLevels n) (tier :: tiers)).read ts).UpToDepth
      (furtherFrom (ofLevels m) tier tiers t rest)
  | .operand t, w => ∀ n ts rest, Splits ts w rest → Ends [] rest →
    (prefixed (ofLevels n) ts).UpToDepth (.ok t rest)
  | .power t, w => ∀ n ts rest, Splits ts w rest → Ends [] rest →
    (Rung.power (ofLevels n) ts).UpToDepth (.ok t rest)
  | .primary t, w => ∀ n ts rest, Splits ts w rest → NoCall rest →
    (Rung.primary (ofLevels n) ts).UpToDepth (.ok t rest)
  | .items separator as, w => separator ∈ [Mark.comma, .semicolon] →
    (∀ n closes ts rest, Splits ts w rest → Closed rest →
      ((ofLevels n).formula.list separator closes ts).UpToDepth
        (((ofLevels n).formula.more separator closes rest).map (as ++ ·))) ∧
    (separator = .comma → ∀ n ts p rest, Splits ts w (p :: rest) →
      (p.token = .mark .semicolon → ((ofLevels n).formula.rows ts).UpToDepth
        (((ofLevels n).formula.rows rest).map (as :: ·))) ∧
      (p.token = .mark .rightBrace →
        ((ofLevels n).formula.rows ts).UpToDepth (.ok [as] rest)))
  | .rows rows, w => ∀ n ts p rest, Splits ts w (p :: rest) → p.token = .mark .rightBrace →
    ((ofLevels n).formula.rows ts).UpToDepth (.ok rows rest)

/-! ### Formulas and chains -/

variable {w w₁ w₂ w₃ : List Token}

/-- Reading a chain to its end. -/
theorem Reads.chain (h : Reads (.chain tiers t) w) (hnodup : tiers.Nodup) {n : Nat}
    (hts : Splits ts w rest) (hrest : Ends tiers rest) :
    ((chainOf (ofLevels n) tiers).read ts).UpToDepth (.ok t rest) := by
  cases tiers with
  | nil => exact h n ts rest hts hrest
  | cons tier tiers =>
    obtain ⟨m, hm⟩ := h hnodup n ts rest hts hrest.mono
    rwa [furtherFrom_of_ends hrest] at hm

theorem nodup_all : Tier.all.Nodup := by decide

theorem reads_unconditional (h : Reads (.chain Tier.all t) w) : Reads (.formula t) w := by
  intro n ts rest hts hrest
  cases n with
  | zero => exact Or.inr ⟨ts, rfl⟩
  | succ n =>
    refine (h.chain nodup_all hts hrest.ends).andThen (Or.inl ?_)
    exact branches_of_closed hrest

theorem reads_conditional {condition yes no : Tree String}
    (hcondition : Reads (.chain Tier.all condition) w₁) (hyes : Reads (.formula yes) w₂)
    (hno : Reads (.formula no) w₃) :
    Reads (.formula (.choice condition yes no))
      (w₁ ++ .mark .question :: (w₂ ++ .mark .colon :: w₃)) := by
  intro n ts rest hts hrest
  cases n with
  | zero => exact Or.inr ⟨ts, rfl⟩
  | succ n =>
    obtain ⟨mid, hts, hmid⟩ := splits_append_iff.1 hts
    obtain ⟨p, mid₁, rfl, hp, hmid⟩ := splits_cons_iff.1 hmid
    obtain ⟨mid₂, hmid₁, hmid⟩ := splits_append_iff.1 hmid
    obtain ⟨q, mid₃, rfl, hq, hmid₃⟩ := splits_cons_iff.1 hmid
    refine (hcondition.chain nodup_all hts (ends_cons_mark hp (by decide))).andThen ?_
    unfold branches
    dsimp only
    rw [if_pos hp]
    refine (hyes n mid₁ _ hmid₁ (closed_cons hq (by decide))).andThen ?_
    rw [expect_of_mark hq]
    exact (hno n mid₃ rest hmid₃ hrest).map _

theorem reads_tighter (h : Reads (.chain tiers t) w) : Reads (.chain (tier :: tiers) t) w := by
  intro hnodup n ts rest hts hrest
  refine ⟨n, (h.chain (List.nodup_cons.1 hnodup).2 hts hrest).andThen ?_⟩
  exact Or.inl rfl

/-- The left part of a chain grows by an operator and its right operand. -/
theorem reads_binary {op : BinaryOp} {left right : Tree String}
    (hleft : Reads (.chain (tier :: tiers) left) w₁) (htier : op.tier? = some tier)
    (hright : Reads (.chain tiers right) w₂) :
    Reads (.chain (tier :: tiers) (.binary op left right)) (w₁ ++ .operator op :: w₂) := by
  intro hnodup n ts rest hts hrest
  obtain ⟨hnot, hnodup'⟩ := List.nodup_cons.1 hnodup
  obtain ⟨mid, hts, hmid⟩ := splits_append_iff.1 hts
  obtain ⟨p, mid, rfl, hp, hmid⟩ := splits_cons_iff.1 hmid
  obtain ⟨m, hm⟩ := hleft hnodup n ts _ hts (ends_cons_operator hp htier hnot)
  have hop : tierOp? tier p.token = some op := tierOp?_eq_some_iff.2 ⟨hp, htier⟩
  have hgo : furtherFrom (ofLevels m) tier tiers left (p :: mid) =
      (((ofLevels m).chain tiers).read mid).andThen fun right rest =>
        (ofLevels m).further tier tiers (.binary op left right) rest := by
    unfold furtherFrom
    dsimp only
    rw [hop]
  rw [hgo] at hm
  cases m with
  | zero => exact ⟨0, hm.trans (Or.inr ⟨mid, rfl⟩)⟩
  | succ m =>
    refine ⟨m, hm.trans ((hright.chain hnodup' hmid hrest).andThen ?_)⟩
    exact Or.inl rfl

/-! ### Prefix operators and powers -/

/-- A prefix operator before a unary. -/
theorem reads_prefix {x : Token} {op : UnaryOp} (hx : prefixOp? x = some op)
    (hplus : x ≠ .operator .add) (h : Reads (.operand t) w) :
    Reads (.operand (.unary op t)) (x :: w) := by
  intro n ts rest hts hrest
  obtain ⟨p, tail, rfl, rfl, htail⟩ := splits_cons_iff.1 hts
  have hp : ¬isPlus p = true := fun h => hplus (of_decide_eq_true h)
  unfold prefixed
  rw [List.dropWhile_cons_of_neg hp]
  dsimp only
  rw [hx]
  cases n with
  | zero => exact Or.inr ⟨tail, rfl⟩
  | succ n => exact (h n tail rest htail hrest).map _

theorem reads_plus (h : Reads (.operand t) w) : Reads (.operand t) (.operator .add :: w) := by
  intro n ts rest hts hrest
  obtain ⟨p, tail, rfl, hp, htail⟩ := splits_cons_iff.1 hts
  have hplus : isPlus p = true := decide_eq_true hp
  have hskip : prefixed (ofLevels n) (p :: tail) = prefixed (ofLevels n) tail := by
    unfold prefixed
    rw [List.dropWhile_cons_of_pos hplus]
  rw [hskip]
  exact h n tail rest htail hrest

theorem reads_unprefixed (hderives : Derives (.power t) w) (h : Reads (.power t) w) :
    Reads (.operand t) w := by
  intro n ts rest hts hrest
  obtain ⟨x, w', rfl, hx⟩ := hderives.opens
  obtain ⟨p, tail, rfl, rfl, -⟩ := splits_cons_iff.1 hts
  have hplus : ¬isPlus p = true := by
    intro hplus
    have hp : p.token = .operator .add := of_decide_eq_true hplus
    rw [hp] at hx
    cases hx
  have hnone : prefixOp? p.token = none := by
    unfold prefixOp?
    split
    · next hp =>
      rw [hp] at hx
      cases hx
    · next hp =>
      rw [hp] at hx
      cases hx
    · rfl
  unfold prefixed
  rw [List.dropWhile_cons_of_neg hplus]
  dsimp only
  rw [hnone]
  exact h n (p :: tail) rest hts hrest

theorem reads_base (h : Reads (.primary t) w) : Reads (.power t) w := by
  intro n ts rest hts hrest
  exact (h n ts rest hts hrest.1).andThen (Or.inl (exponent_of_ends hrest))

theorem reads_raised {op : BinaryOp} {base exponent : Tree String}
    (hbase : Reads (.primary base) w₁) (hop : op ∈ [BinaryOp.power, .cellPower, .scalarPower])
    (hexponent : Reads (.operand exponent) w₂) :
    Reads (.power (.binary op base exponent)) (w₁ ++ .operator op :: w₂) := by
  intro n ts rest hts hrest
  obtain ⟨mid, hts, hmid⟩ := splits_append_iff.1 hts
  obtain ⟨p, mid, rfl, hp, hmid⟩ := splits_cons_iff.1 hmid
  have hcall : NoCall (p :: mid) := by
    intro q hq
    cases hq
    rw [hp]
    exact fun h => nomatch h
  refine (hbase n ts _ hts hcall).andThen ?_
  unfold Rung.exponent
  dsimp only
  rw [powerOp?_eq_some_iff.2 ⟨hp, hop⟩]
  cases n with
  | zero => exact Or.inr ⟨mid, rfl⟩
  | succ n => exact (hexponent n mid rest hmid hrest).map _

/-! ### Lists of formulas -/

namespace Reader

variable {item : Reader (Tree String)} {separator : Mark} {closes : Bool}

/-- A list is over where no separator follows. -/
theorem more_of_ne (h : ∀ p ∈ rest.head?, p.token ≠ .mark separator) :
    item.more separator closes rest = .ok [] rest := by
  rw [more.eq_def]
  cases rest with
  | nil => rfl
  | cons p rest => exact if_neg (h p rfl)

/-- A separator before further tokens is followed by a list. -/
theorem more_of_separator (hp : p.token = .mark separator) (hts : ts ≠ []) :
    item.more separator closes (p :: ts) = item.list separator closes ts := by
  have hlast : ¬(closes && ts.isEmpty) = true := by
    rw [List.isEmpty_eq_false_iff.2 hts, Bool.and_false]
    exact Bool.false_ne_true
  rw [more.eq_def]
  dsimp only
  rw [if_pos hp, if_neg hlast]
  unfold list
  split
  · next h =>
    rw [h]
    rfl
  · next h =>
    rw [h]
    rfl

/-- A separator at the very end closes a list that it may close. -/
theorem more_of_last (hp : p.token = .mark separator) :
    item.more separator true [p] = .ok [] [] := by
  rw [more.eq_def]
  exact if_pos hp

theorem rows_eq (ts : List Placed) : item.rows ts = (item.read ts).andThen fun a mid =>
    match mid with
    | [] => .fault [] (.expected .elementsEnd none)
    | p :: rest =>
      match p.token with
      | .mark .comma => (item.rows rest).map (Text.consHead a)
      | .mark .semicolon => (item.rows rest).map ([a] :: ·)
      | .mark .rightBrace => .ok [[a]] rest
      | other => .fault rest (.expected .elementsEnd other) := by
  rw [rows.eq_def]
  split
  · next h =>
    rw [h]
    rfl
  · next h =>
    rw [h]
    rfl
  · next h =>
    dsimp only
    rw [h]
    rfl

end Reader

theorem reads_item {separator : Mark} (h : Reads (.formula t) w) :
    Reads (.items separator [t]) w := by
  refine fun _ => ⟨fun n closes ts rest hts hrest => ?_, fun _ n ts p rest hts => ⟨fun hp => ?_,
    fun hp => ?_⟩⟩
  · exact (h n ts rest hts hrest).andThen (Or.inl rfl)
  · rw [Reader.rows_eq]
    refine (h n ts _ hts (closed_cons hp (by decide))).andThen (Or.inl ?_)
    dsimp only
    rw [hp]
  · rw [Reader.rows_eq]
    refine (h n ts _ hts (closed_cons hp (by decide))).andThen (Or.inl ?_)
    dsimp only
    rw [hp]

theorem reads_items {separator : Mark} {as : List (Tree String)} (h : Reads (.formula t) w₁)
    (hderives : Derives (.items separator as) w₂) (has : Reads (.items separator as) w₂) :
    Reads (.items separator (t :: as)) (w₁ ++ .mark separator :: w₂) := by
  intro hseparator
  obtain ⟨hlist, hrow⟩ := has hseparator
  have hcloser : separator ∈ closers := by
    rcases List.mem_cons.1 hseparator with rfl | hseparator
    · decide
    · obtain rfl := List.mem_singleton.1 hseparator
      decide
  constructor
  · intro n closes ts rest hts hrest
    obtain ⟨mid, hts, hmid⟩ := splits_append_iff.1 hts
    obtain ⟨p, tail, rfl, hp, htail⟩ := splits_cons_iff.1 hmid
    refine (h n ts _ hts (closed_cons hp hcloser)).andThen ?_
    have hne : tail ≠ [] := by
      obtain ⟨x, w', rfl, -⟩ := hderives.opens
      obtain ⟨q, tail', rfl, -⟩ := splits_cons_iff.1 htail
      exact List.cons_ne_nil _ _
    rw [Reader.more_of_separator hp hne]
    refine ((hlist n closes tail rest htail hrest).map (t :: ·)).trans (Or.inl ?_)
    rw [Outcome.map_map]
    rfl
  · rintro rfl n ts p rest hts
    obtain ⟨mid, hts, hmid⟩ := splits_append_iff.1 hts
    obtain ⟨q, tail, rfl, hq, htail⟩ := splits_cons_iff.1 hmid
    obtain ⟨hsemicolon, hbrace⟩ := hrow rfl n tail p rest htail
    have hfirst : ∀ {o : Outcome (List (List (Tree String)))},
        (((ofLevels n).formula.rows tail).map (Text.consHead t)).UpToDepth o →
        ((ofLevels n).formula.rows ts).UpToDepth o := by
      intro o ho
      rw [Reader.rows_eq]
      refine (h n ts _ hts (closed_cons hq (by decide))).andThen ?_
      dsimp only
      rw [hq]
      exact ho
    constructor
    · intro hp
      refine hfirst (((hsemicolon hp).map _).trans (Or.inl ?_))
      rw [Outcome.map_map]
      rfl
    · intro hp
      exact hfirst ((hbrace hp).map _)

theorem reads_row {row : List (Tree String)} (h : Reads (.items .comma row) w) :
    Reads (.rows [row]) w := by
  intro n ts p rest hts hp
  exact (((h (by decide)).2 rfl n ts p rest hts).2 hp)

theorem reads_rows {row : List (Tree String)} {rows : List (List (Tree String))}
    (h : Reads (.items .comma row) w₁) (hrows : Reads (.rows rows) w₂) :
    Reads (.rows (row :: rows)) (w₁ ++ .mark .semicolon :: w₂) := by
  intro n ts p rest hts hp
  obtain ⟨mid, hts, hmid⟩ := splits_append_iff.1 hts
  obtain ⟨q, tail, rfl, hq, htail⟩ := splits_cons_iff.1 hmid
  have hrow := ((h (by decide)).2 rfl n ts q tail hts).1 hq
  exact hrow.trans ((hrows n tail p rest htail hp).map _)

/-- Reading a list to its end. -/
theorem Reads.list {separator : Mark} {as : List (Tree String)} (h : Reads (.items separator as) w)
    (hseparator : separator ∈ [Mark.comma, .semicolon]) {n : Nat} {closes : Bool}
    (hts : Splits ts w rest) (hrest : Closed rest)
    (hne : ∀ p ∈ rest.head?, p.token ≠ .mark separator) :
    ((ofLevels n).formula.list separator closes ts).UpToDepth (.ok as rest) := by
  have hlist := (h hseparator).1 n closes ts rest hts hrest
  rwa [Reader.more_of_ne hne, Outcome.map_append_nil] at hlist

/-! ### Primaries -/

/-- A phrase that may be closed by a mark does not begin with it. -/
theorem head_ne_of_opens {p : Phrase} {m : Mark} (h : Derives p w) (hm : m ∈ closers)
    (hts : Splits ts w rest) : ts.head?.any (·.token = .mark m) = false := by
  obtain ⟨x, w', rfl, hx⟩ := h.opens
  obtain ⟨q, ts', rfl, rfl, -⟩ := splits_cons_iff.1 hts
  rw [List.head?_cons, Option.any_some, decide_eq_false_iff_not]
  intro hq
  rw [hq] at hx
  have hnot : ∀ b, ∀ m ∈ closers, opens b (.mark m) = false := by decide
  rw [hnot _ m hm] at hx
  cases hx

theorem reads_number (x : Float) : Reads (.primary (.number x)) [.number x] := by
  intro n ts rest hts _
  obtain ⟨p, rfl, hp⟩ := splits_singleton_iff.1 hts
  unfold Rung.primary
  dsimp only
  rw [hp]
  exact Or.inl rfl

/-- A name that is not called. -/
theorem reads_name {name : String} (h : nameTree name = t) : Reads (.primary t) [.name name] := by
  intro n ts rest hts hrest
  obtain ⟨p, rfl, hp⟩ := splits_singleton_iff.1 hts
  have hcall : ¬rest.head?.any (·.token = .mark .leftParen) = true := by
    intro hany
    obtain ⟨q, hq, hparen⟩ := (Option.any_eq_true _ _).1 hany
    exact hrest q hq (of_decide_eq_true hparen)
  unfold Rung.primary
  dsimp only
  rw [hp]
  dsimp only
  rw [if_neg hcall, h]
  exact Or.inl rfl

theorem reads_call {name : String} {f : Function} {args : List (Tree String)}
    (hf : Function.lookup name = some f) (hderives : Derives (.items .comma args) w)
    (hargs : Reads (.items .comma args) w) (haccepts : f.arity.accepts args.length = true) :
    Reads (.primary (.call f args))
      (.name name :: .mark .leftParen :: (w ++ [.mark .rightParen])) := by
  intro n ts rest hts _
  obtain ⟨p, tail, rfl, hp, htail⟩ := splits_cons_iff.1 hts
  obtain ⟨q, body, rfl, hq, hbody⟩ := splits_cons_iff.1 htail
  obtain ⟨r, hr, hbody⟩ := splits_concat_iff.1 hbody
  have hparen : (q :: body).head?.any (·.token = .mark .leftParen) = true := by
    rw [List.head?_cons, Option.any_some, hq]
    rfl
  have hstart := head_ne_of_opens hderives (m := .rightParen) (by decide) hbody
  have hlist : ((ofLevels n).formula.list .comma false body).UpToDepth (.ok args (r :: rest)) := by
    refine hargs.list (by decide) hbody (closed_cons hr (by decide)) fun x hx => ?_
    cases hx
    rw [hr]
    exact fun h => nomatch h
  unfold Rung.primary
  dsimp only
  rw [hp]
  dsimp only
  rw [if_pos hparen]
  unfold Rung.call
  rw [hf]
  dsimp only
  unfold arguments
  rw [List.tail_cons, hstart]
  refine hlist.andThen ?_
  rw [expect_of_mark hr]
  exact Or.inl (if_pos haccepts)

theorem reads_group (h : Reads (.formula t) w) :
    Reads (.primary t) (.mark .leftParen :: (w ++ [.mark .rightParen])) := by
  intro n ts rest hts _
  obtain ⟨p, tail, rfl, hp, htail⟩ := splits_cons_iff.1 hts
  obtain ⟨r, hr, hbody⟩ := splits_concat_iff.1 htail
  unfold Rung.primary
  dsimp only
  rw [hp]
  refine (h n tail _ hbody (closed_cons hr (by decide))).andThen ?_
  rw [expect_of_mark hr]
  exact Or.inl rfl

theorem reads_matrix {rows : List (List (Tree String))} {cols : Nat}
    (hderives : Derives (.rows rows) w) (h : Reads (.rows rows) w)
    (hcols : ∀ row ∈ rows, row.length = cols) :
    Reads (.primary (.matrix rows.length cols rows.flatten))
      (.mark .leftBrace :: (w ++ [.mark .rightBrace])) := by
  intro n ts rest hts _
  obtain ⟨p, tail, rfl, hp, htail⟩ := splits_cons_iff.1 hts
  obtain ⟨r, hr, hbody⟩ := splits_concat_iff.1 htail
  have hstart := head_ne_of_opens hderives (m := .rightBrace) (by decide) hbody
  have hmatrix : matrixOfRows? rows = some (.matrix rows.length cols rows.flatten) := by
    obtain ⟨row, more, rfl⟩ := List.exists_cons_of_ne_nil hderives.rows_ne_nil
    have hrow : row.length = cols := hcols row List.mem_cons_self
    unfold matrixOfRows?
    dsimp only
    rw [List.headD_cons, hrow, if_pos]
    exact List.all_eq_true.2 fun row' hmem => decide_eq_true (hcols row' hmem)
  unfold Rung.primary
  dsimp only
  rw [hp]
  dsimp only
  unfold Rung.matrix
  rw [hstart]
  refine (h n tail r rest hbody hr).andThen ?_
  rw [hmatrix]
  exact Or.inl rfl

/-! ### Derivations -/

/-- The readers do with the words that a phrase derives what they should. -/
theorem reads_of_derives {p : Phrase} {w : List Token} (h : Derives p w) : Reads p w := by
  induction h with
  | unconditional _ ih => exact reads_unconditional ih
  | conditional _ _ _ ih₁ ih₂ ih₃ => exact reads_conditional ih₁ ih₂ ih₃
  | unary _ ih => exact ih
  | tighter _ ih => exact reads_tighter ih
  | binary _ htier _ ih₁ ih₂ => exact reads_binary ih₁ htier ih₂
  | negate _ ih => exact reads_prefix rfl (by decide) ih
  | not _ ih => exact reads_prefix rfl (by decide) ih
  | plus _ ih => exact reads_plus ih
  | unprefixed h ih => exact reads_unprefixed h ih
  | base _ ih => exact reads_base ih
  | raised _ hop _ ih₁ ih₂ => exact reads_raised ih₁ hop ih₂
  | number x => exact reads_number x
  | constant h => exact reads_name (by unfold nameTree; rw [h])
  | named h => exact reads_name (by unfold nameTree; rw [h])
  | call hf h haccepts ih => exact reads_call hf h ih haccepts
  | group _ ih => exact reads_group ih
  | matrix h hcols ih => exact reads_matrix h ih hcols
  | item _ ih => exact reads_item ih
  | items _ h ih₁ ih₂ => exact reads_items ih₁ h ih₂
  | row _ ih => exact reads_row ih
  | rows _ _ ih₁ ih₂ => exact reads_rows ih₁ ih₂

/-! ### Whole formulas -/

/-- **Completeness**: tokens that derive from the grammar are read as the tree that the derivation
denotes, unless it is nested too deeply. -/
theorem treeOfTokens_of_sequence {ts : List Placed} {w : List Token} (h : Sequence w t)
    (hw : ts.map (·.token) = w) : (treeOfTokens ts).UpToDepth (.ok t []) := by
  have hlist : ∃ as, t = sequenceTree as ∧
      ((ofLevels maxDepth).formula.list .semicolon true ts).UpToDepth (.ok as []) := by
    cases h with
    | @plain as w h =>
      refine ⟨as, rfl, ?_⟩
      exact (reads_of_derives h).list (by decide) (splits_all_iff.2 hw) closed_nil fun _ hp =>
        nomatch hp
    | @closed as w h =>
      obtain ⟨p, hp, hts⟩ := splits_concat_iff.1 (splits_all_iff.2 hw)
      have hread := ((reads_of_derives h) (by decide)).1 maxDepth true ts [p] hts
        (closed_cons hp (by decide))
      rw [Reader.more_of_last hp, Outcome.map_append_nil] at hread
      exact ⟨as, rfl, hread⟩
  obtain ⟨as, rfl, hlist⟩ := hlist
  exact hlist.andThen (Or.inl rfl)

/-- **The grammar**: reading a text and deriving its tokens come to the same. A text that is read
has tokens that derive, with the tree that was read; tokens that derive are read as the tree that
the derivation denotes, and so is their text, unless it is nested too deeply. -/
theorem Formula.parse_iff_sequence :
    (∀ text f, Formula.parse text = .ok f → f.source = text ∧
      ∃ ts, tokenize text.toList = .ok ts ∧ Sequence (ts.map (·.token)) f.tree) ∧
    (∀ (text : String) ts t, tokenize text.toList = .ok ts → Sequence (ts.map (·.token)) t →
      Formula.parse text = .ok ⟨text, t⟩ ∨
        ∃ position, Formula.parse text = .error ⟨position, .tooDeep⟩) ∧
    ∀ (ts : List Placed) t, Sequence (ts.map (·.token)) t →
      treeOfTokens ts = .ok t [] ∨ ∃ place, treeOfTokens ts = .fault place .tooDeep := by
  refine ⟨fun text f h => ?_, fun text ts t hts h => ?_, fun ts t h =>
    treeOfTokens_of_sequence h rfl⟩
  · unfold Formula.parse at h
    split at h
    · cases h
    · next ts hts =>
      split at h
      · next t rest htree =>
        cases h
        exact ⟨rfl, ts, hts, (derives_of_treeOfTokens htree).2⟩
      · cases h
  · unfold Formula.parse
    rw [hts]
    dsimp only
    rcases treeOfTokens_of_sequence h rfl with htree | ⟨place, htree⟩
    · rw [htree]
      exact Or.inl rfl
    · rw [htree]
      exact Or.inr ⟨_, rfl⟩

/-- A minus sign is looser than a power, and a semicolon may close a formula. -/
theorem Formula.parse_negatedPower :
    let text := "-a ^ b;"
    let tree : Tree String := .unary .negate (.binary .power (.variable "a") (.variable "b"))
    let ts : List Placed := [⟨.operator .subtract, 0⟩, ⟨.name "a", 1⟩, ⟨.operator .power, 3⟩,
      ⟨.name "b", 5⟩, ⟨.mark .semicolon, 6⟩]
    tokenize text.toList = .ok ts ∧ Sequence (ts.map (·.token)) tree ∧
      Formula.parse text = .ok ⟨text, tree⟩ := by
  intro text tree ts
  have hts : tokenize text.toList = .ok ts := eq_ok_of_toOption (by decide +kernel)
  have hname : ∀ name, namedConstants.lookup name = none →
      Derives (.primary (.variable name)) [.name name] := fun _ h => .named h
  have hpower : Derives (.power (.binary .power (.variable "a") (.variable "b")))
      ([.name "a"] ++ .operator .power :: [.name "b"]) :=
    .raised (hname "a" (by decide)) (by decide) (.unprefixed (.base (hname "b" (by decide))))
  have hformula : Derives (.formula tree) (ts.dropLast.map (·.token)) :=
    .unconditional (.tighter (.tighter (.tighter (.tighter (.tighter (.unary (.negate
      (.unprefixed hpower))))))))
  have hsequence : Sequence (ts.map (·.token)) tree := .closed (.item hformula)
  refine ⟨hts, hsequence, ?_⟩
  rcases parse_iff_sequence.2.1 text ts tree hts hsequence with h | ⟨position, h⟩
  · exact h
  · have hok : (Formula.parse text).isOk = true := by decide +kernel
    rw [h] at hok
    cases hok

end MapAlgebra.Expr
