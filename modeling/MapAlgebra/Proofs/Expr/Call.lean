import MapAlgebra.Proofs.Expr.Word

/-!
# Calls on variables

The name of a function and, in parentheses, names apart by commas make up the call of the function
on the variables of these names. Main statement: **`Formula.parse_call`**. The text is followed from
its end, as the tokens after a name do not depend on where they stand.
-/

namespace MapAlgebra.Expr

open Text

/-- The call of a function on variables, as a text. -/
def callText (function : String) (names : List String) : String :=
  function ++ "(" ++ String.intercalate ", " names ++ ")"

/-- Names apart by commas, as tokens. -/
def argumentWords (names : List String) : List Token :=
  (names.map .name).intersperse (.mark .comma)

/-! ### Tokens -/

/-- Tokens go on after a mark with which no longer one begins. -/
theorem tokensFrom_mark {c : Char} {m : Mark} {cs : List Char} {w : List Token}
    (hm : (c, m) ∈ [('(', Mark.leftParen), (')', .rightParen), (',', .comma), (';', .semicolon),
      ('{', .leftBrace), ('}', .rightBrace)])
    (h : ∀ offset, ∃ ts, tokensFrom offset cs = .ok ts ∧ ts.map (·.token) = w) (offset : Nat) :
    ∃ ts, tokensFrom offset (c :: cs) = .ok ts ∧ ts.map (·.token) = .mark m :: w := by
  simp only [List.mem_cons, Prod.mk.injEq, List.not_mem_nil, or_false] at hm
  rcases hm with ⟨rfl, rfl⟩ | ⟨rfl, rfl⟩ | ⟨rfl, rfl⟩ | ⟨rfl, rfl⟩ | ⟨rfl, rfl⟩ | ⟨rfl, rfl⟩ <;>
    exact tokensFrom_cons (by decide) (by cases cs <;> rfl) h

/-- Tokens go on after a blank. -/
theorem tokensFrom_blank {c : Char} {cs : List Char} {w : List Token} (hblank : isBlank c = true)
    (h : ∀ offset, ∃ ts, tokensFrom offset cs = .ok ts ∧ ts.map (·.token) = w) (offset : Nat) :
    ∃ ts, tokensFrom offset (c :: cs) = .ok ts ∧ ts.map (·.token) = w := by
  obtain ⟨ts, hts, hw⟩ := h (offset + 1)
  refine ⟨ts, ?_, hw⟩
  rw [tokensFrom, if_pos hblank, hts]

/-- A text that begins with a character that names do not go on with. -/
theorem forall_head?_cons {c : Char} (h : continuesName c = false) (cs : List Char) :
    ∀ d ∈ (c :: cs).head?, continuesName d = false := by
  intro d hd
  cases hd
  exact h

/-- Names apart by commas, before something that no name goes on with. -/
theorem tokensFrom_arguments {rest : List Char} {w : List Token}
    (hrest : ∀ d ∈ rest.head?, continuesName d = false)
    (h : ∀ offset, ∃ ts, tokensFrom offset rest = .ok ts ∧ ts.map (·.token) = w) :
    ∀ {names : List String}, names ≠ [] →
      (∀ name ∈ names, isName name = true ∧ name ∉ reservedNames) → ∀ offset,
      ∃ ts, tokensFrom offset ((String.intercalate ", " names).toList ++ rest) = .ok ts ∧
        ts.map (·.token) = argumentWords names ++ w
  | [], hne, _ => absurd rfl hne
  | [name], _, hnames => by
    obtain ⟨hname, hfree⟩ := List.forall_mem_singleton.1 hnames
    rw [String.intercalate_singleton]
    exact tokensFrom_name hname (BinaryOp.ofWord?_eq_none hfree) hrest h
  | name :: next :: names, _, hnames => by
    obtain ⟨⟨hname, hfree⟩, hnames⟩ := List.forall_mem_cons.1 hnames
    have hlater := tokensFrom_blank (c := ' ') (by decide)
      (tokensFrom_arguments hrest h (List.cons_ne_nil next names) hnames)
    have hcomma := tokensFrom_mark (c := ',') (m := .comma) (by decide) hlater
    rw [String.intercalate_cons_cons, String.toList_append, String.toList_append,
      List.append_assoc, List.append_assoc]
    exact tokensFrom_name hname (BinaryOp.ofWord?_eq_none hfree)
      (forall_head?_cons (by decide) _) hcomma

/-- The names of functions are names, and no operator is spelled like one. -/
theorem isName_of_mem_registry : ∀ entry ∈ Function.registry, isName entry.1 = true ∧
    BinaryOp.ofWord? entry.1 = none := by
  decide +kernel

/-- A call is cut up at its marks. -/
theorem tokenize_call {function : String} {f : Function}
    (hfunction : Function.lookup function = some f) {names : List String} (hne : names ≠ [])
    (hnames : ∀ name ∈ names, isName name = true ∧ name ∉ reservedNames) :
    ∃ ts, tokenize (callText function names).toList = .ok ts ∧ ts.map (·.token) =
      .name function :: .mark .leftParen :: (argumentWords names ++ [.mark .rightParen]) := by
  obtain ⟨before, after, hregistry, -⟩ := List.lookup_eq_some_iff.1 hfunction
  obtain ⟨hname, hop⟩ := isName_of_mem_registry (function, f) (by simp [hregistry])
  have hend : ∀ offset, ∃ ts, tokensFrom offset [')'] = .ok ts ∧
      ts.map (·.token) = [.mark .rightParen] :=
    tokensFrom_mark (by decide) fun offset => ⟨[], by rw [tokensFrom], rfl⟩
  have harguments := tokensFrom_arguments (forall_head?_cons (by decide) []) hend hne hnames
  have hopen := tokensFrom_mark (c := '(') (m := .leftParen) (by decide) harguments
  have hcall := tokensFrom_name hname hop (forall_head?_cons (by decide) _) hopen 0
  unfold callText tokenize
  rwa [String.toList_append, String.toList_append, String.toList_append, List.append_assoc,
    List.append_assoc]

/-! ### Readers -/

namespace Rung

variable {inner : Rung} {p : Placed} {ts rest : List Placed}

/-- Names apart by commas are read as variables, up to what closes the list. -/
theorem list_names (hp : p.token = .mark .rightParen) : ∀ {names : List String}, names ≠ [] →
    (∀ name ∈ names, name ∉ reservedNames) → ∀ {ts : List Placed},
    Splits ts (argumentWords names) (p :: rest) →
    (formulaOf inner).list .comma false ts = .ok (names.map .variable) (p :: rest)
  | [], hne, _, _, _ => absurd rfl hne
  | [name], _, hfree, ts, hts => by
    obtain ⟨q, rfl, hq⟩ := splits_singleton_iff.1 hts
    have hread : (formulaOf inner).read (q :: p :: rest) = .ok (nameTree name) (p :: rest) :=
      formulaOf_name hq (closed_cons hp (by decide))
    have hlast : ∀ q ∈ (p :: rest).head?, q.token ≠ .mark .comma := by
      intro q hq
      cases hq
      rw [hp]
      exact fun h => nomatch h
    unfold Reader.list
    rw [hread, nameTree_eq (hfree name List.mem_cons_self)]
    dsimp only [Outcome.andThen]
    rw [Reader.more_of_ne hlast]
    rfl
  | name :: next :: names, _, hfree, ts, hts => by
    obtain ⟨q, tail, rfl, hq, htail⟩ := splits_cons_iff.1 hts
    obtain ⟨comma, tail, rfl, hcomma, htail⟩ := splits_cons_iff.1 htail
    have hread : (formulaOf inner).read (q :: comma :: tail) =
        .ok (nameTree name) (comma :: tail) := formulaOf_name hq (closed_cons hcomma (by decide))
    have hmore : tail ≠ [] := by
      rintro rfl
      obtain ⟨us, -, hus⟩ := htail
      exact absurd hus (by simp)
    have hlater := list_names hp (List.cons_ne_nil next names)
      (fun name' hmem => hfree name' (List.mem_cons_of_mem _ hmem)) htail
    unfold Reader.list
    rw [hread, nameTree_eq (hfree name List.mem_cons_self)]
    dsimp only [Outcome.andThen]
    rw [Reader.more_of_separator hcomma hmore, hlater]
    rfl

/-- A call on variables is a formula of its own. -/
theorem formulaOf_call (inner : Rung) {function : String} {f : Function}
    (hfunction : Function.lookup function = some f) {names : List String} (hne : names ≠ [])
    (hfree : ∀ name ∈ names, name ∉ reservedNames)
    (haccepts : f.arity.accepts names.length = true)
    (hts : ts.map (·.token) =
      .name function :: .mark .leftParen :: (argumentWords names ++ [.mark .rightParen])) :
    (formulaOf (above inner)).read ts = .ok (.call f (names.map .variable)) [] := by
  obtain ⟨head, tail, rfl, hhead, htail⟩ := splits_cons_iff.1 (splits_all_iff.2 hts)
  obtain ⟨opening, body, rfl, hopening, hbody⟩ := splits_cons_iff.1 htail
  obtain ⟨closing, hclosing, hbody⟩ := splits_concat_iff.1 hbody
  have hparen : (opening :: body).head?.any (·.token = .mark .leftParen) = true := by
    rw [List.head?_cons, Option.any_some, hopening]
    rfl
  have hstart : body.head?.any (·.token = .mark .rightParen) = false := by
    obtain ⟨name, names, rfl⟩ := List.exists_cons_of_ne_nil hne
    obtain ⟨w, hw⟩ : ∃ w, argumentWords (name :: names) = .name name :: w := by
      cases names <;> exact ⟨_, rfl⟩
    rw [hw] at hbody
    obtain ⟨q, tail, rfl, hq, -⟩ := splits_cons_iff.1 hbody
    rw [List.head?_cons, Option.any_some, hq]
    rfl
  refine formulaOf_primary ⟨head, rfl, ?_, ?_⟩ ?_ closed_nil
  · rw [isPlus, hhead]
    rfl
  · rw [hhead]
    rfl
  · unfold primary
    dsimp only
    rw [hhead]
    dsimp only
    rw [if_pos hparen]
    unfold call
    rw [hfunction]
    dsimp only
    unfold arguments
    rw [List.tail_cons, hstart, if_neg Bool.false_ne_true]
    show ((formulaOf inner).list .comma false body).andThen _ = _
    rw [list_names hclosing hne hfree hbody]
    dsimp only [Outcome.andThen]
    rw [expect_of_mark hclosing, List.length_map]
    exact if_pos haccepts

end Rung

/-- **Calls**: the name of a function and, in parentheses, names that are not reserved are read as
the call of the function on the variables of these names, if it takes so many. -/
theorem Formula.parse_call {function : String} {f : Function}
    (hfunction : Function.lookup function = some f) {names : List String} (hne : names ≠ [])
    (hnames : ∀ name ∈ names, isName name = true ∧ name ∉ reservedNames)
    (haccepts : f.arity.accepts names.length = true) :
    Formula.parse (callText function names) =
      .ok ⟨callText function names, .call f (names.map .variable)⟩ :=
  parse_of_formula (tokenize_call hfunction hne hnames) fun _ hts =>
    Rung.formulaOf_call (.ofLevels (maxDepth - 2)) hfunction hne
      (fun name hmem => (hnames name hmem).2) haccepts hts

end MapAlgebra.Expr
