import MapAlgebra.Expr.SyntaxError
import MapAlgebra.Text.Split

/-!
# Readers

A reader takes one construct off the front of a list of tokens. It always takes at least one token,
which is part of its type, so a list of constructs is read by recursion on the number of tokens
left. A fault keeps the tokens from the place it is reported at on, and thereby that place.
-/

namespace MapAlgebra.Expr

/-- What comes of reading a construct. -/
inductive Outcome (α : Type) where
  /-- The construct and the tokens after it. -/
  | ok (a : α) (rest : List Placed)
  /-- A fault: the tokens from the place of the fault on, and what is wrong. -/
  | fault (rest : List Placed) (cause : Cause)

namespace Outcome

variable {α β : Type}

/-- Go on with what was read and the tokens after it. -/
def andThen (o : Outcome α) (f : α → List Placed → Outcome β) : Outcome β :=
  match o with
  | .ok a rest => f a rest
  | .fault rest cause => .fault rest cause

/-- Change what was read. -/
def map (f : α → β) (o : Outcome α) : Outcome β :=
  o.andThen fun a rest => .ok (f a) rest

theorem andThen_eq_ok_iff {o : Outcome α} {f : α → List Placed → Outcome β} {b : β}
    {rest : List Placed} :
    o.andThen f = .ok b rest ↔ ∃ a mid, o = .ok a mid ∧ f a mid = .ok b rest := by
  cases o with
  | ok a mid =>
    exact ⟨fun h => ⟨a, mid, rfl, h⟩, fun ⟨_, _, ho, h⟩ => by cases ho; exact h⟩
  | fault mid cause => simp [andThen]

theorem map_eq_ok_iff {o : Outcome α} {f : α → β} {b : β} {rest : List Placed} :
    o.map f = .ok b rest ↔ ∃ a, o = .ok a rest ∧ f a = b := by
  cases o with
  | ok a mid =>
    simp only [map, andThen, ok.injEq]
    exact ⟨fun h => ⟨a, ⟨rfl, h.2⟩, h.1⟩, fun ⟨_, h, hb⟩ => ⟨h.1 ▸ hb, h.2⟩⟩
  | fault mid cause => simp [map, andThen]

end Outcome

/-- A reader of one construct. -/
structure Reader (α : Type) where
  /-- Read one construct. -/
  read : List Placed → Outcome α
  /-- A construct takes at least one token. -/
  progress : ∀ {ts : List Placed} {a : α} {rest : List Placed},
    read ts = .ok a rest → rest.length < ts.length

/-- Take the mark `m`, which must come next; `what` names it in the fault. -/
def expect (m : Mark) (what : Expected) : List Placed → Outcome Unit
  | [] => .fault [] (.expected what none)
  | t :: ts => if t.token = .mark m then .ok () ts else .fault (t :: ts) (.expected what t.token)

theorem length_of_expect {m : Mark} {what : Expected} {ts rest : List Placed} {u : Unit}
    (h : expect m what ts = .ok u rest) : rest.length < ts.length := by
  unfold expect at h
  split at h
  · cases h
  · split at h
    · cases h; simp
    · cases h

/-! ### Lists of constructs -/

namespace Reader

variable {α : Type}

/-- The further items of a list, each after the mark `separator`. When `closes` holds, a separator
at the very end belongs to the list too. -/
def more (item : Reader α) (separator : Mark) (closes : Bool) (ts : List Placed) :
    Outcome (List α) :=
  match ts with
  | [] => .ok [] []
  | t :: ts =>
    if t.token = .mark separator then
      if closes && ts.isEmpty then .ok [] []
      else
        match h : item.read ts with
        | .fault rest cause => .fault rest cause
        | .ok a rest =>
          have := item.progress h
          (more item separator closes rest).map (a :: ·)
    else .ok [] (t :: ts)
termination_by ts.length

/-- The items of a list of one or more. -/
def list (item : Reader α) (separator : Mark) (closes : Bool) (ts : List Placed) :
    Outcome (List α) :=
  (item.read ts).andThen fun a rest => (item.more separator closes rest).map (a :: ·)

/-- The rows of a matrix up to its closing brace: elements apart by commas, rows by semicolons. What
stands in the place of a separator is reported at the token after it. -/
def rows (item : Reader α) (ts : List Placed) : Outcome (List (List α)) :=
  match h : item.read ts with
  | .fault rest cause => .fault rest cause
  | .ok _ [] => .fault [] (.expected .elementsEnd none)
  | .ok a (t :: rest) =>
    have := item.progress h
    match t.token with
    | .mark .comma => (rows item rest).map (Text.consHead a)
    | .mark .semicolon => (rows item rest).map ([a] :: ·)
    | .mark .rightBrace => .ok [[a]] rest
    | other => .fault rest (.expected .elementsEnd other)
termination_by ts.length
decreasing_by all_goals simp only [List.length_cons] at this; omega

variable {item : Reader α} {separator : Mark} {closes : Bool} {ts rest : List Placed}

theorem length_of_more {as : List α} (h : item.more separator closes ts = .ok as rest) :
    rest.length ≤ ts.length := by
  fun_induction Reader.more item separator closes ts generalizing as rest with
  | case1 => cases h; simp
  | case2 => cases h; simp
  | case3 => cases h
  | case4 ts₀ ts₁ ht hc a mid hitem hlt ih =>
    obtain ⟨as', hmore, -⟩ := Outcome.map_eq_ok_iff.1 h
    have := ih hmore
    simp only [List.length_cons]
    omega
  | case5 => cases h; simp

theorem length_of_list {as : List α} (h : item.list separator closes ts = .ok as rest) :
    rest.length < ts.length := by
  obtain ⟨a, mid, hitem, hrest⟩ := Outcome.andThen_eq_ok_iff.1 h
  obtain ⟨as', hmore, -⟩ := Outcome.map_eq_ok_iff.1 hrest
  exact Nat.lt_of_le_of_lt (length_of_more hmore) (item.progress hitem)

theorem length_of_rows {as : List (List α)} (h : item.rows ts = .ok as rest) :
    rest.length < ts.length := by
  fun_induction Reader.rows item ts generalizing as rest with
  | case1 => cases h
  | case2 => cases h
  | case3 ts a t mid hitem hlt ht ih =>
    obtain ⟨rows, hrows, -⟩ := Outcome.map_eq_ok_iff.1 h
    have := ih hrows
    simp only [List.length_cons] at hlt
    omega
  | case4 ts a t mid hitem hlt ht ih =>
    obtain ⟨rows, hrows, -⟩ := Outcome.map_eq_ok_iff.1 h
    have := ih hrows
    simp only [List.length_cons] at hlt
    omega
  | case5 ts a t mid hitem hlt ht =>
    cases h
    simp only [List.length_cons] at hlt
    omega
  | case6 => cases h

end Reader

end MapAlgebra.Expr
