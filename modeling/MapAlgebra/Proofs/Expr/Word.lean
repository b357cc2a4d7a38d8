import MapAlgebra.Proofs.Expr.Completeness
import MapAlgebra.Proofs.Expr.Nesting

/-!
# Names in formulas

The catalog and the formulas have each their own notion of a name. Main statement:
**`Formula.parse_name`** says that they agree: a text that is a name and is not reserved is read as
one variable of that name. A name that is followed by something else than a letter, a digit or an
underscore is one lexeme (`tokensFrom_name`), and one that is followed by nothing or by a closing
mark is a formula of its own (`Rung.formulaOf_name`).
-/

namespace MapAlgebra

/-! ### Characters of names -/

namespace Text

variable {c : Char}

/-- A name starts with a character between the first capital and the last small letter. -/
theorem toNat_of_startsName (h : startsName c = true) : 65 ≤ c.toNat ∧ c.toNat ≤ 122 := by
  simp only [startsName, isLetter, Bool.or_eq_true, Bool.and_eq_true, decide_eq_true_eq,
    Char.le_def, UInt32.le_iff_toNat_le] at h
  unfold Char.toNat
  rcases h with (⟨hle, hge⟩ | ⟨hle, hge⟩) | rfl
  · change 97 ≤ c.val.toNat at hle
    change c.val.toNat ≤ 122 at hge
    exact ⟨by omega, hge⟩
  · change 65 ≤ c.val.toNat at hle
    change c.val.toNat ≤ 90 at hge
    exact ⟨hle, by omega⟩
  · decide

theorem isBlank_of_startsName (h : startsName c = true) : isBlank c = false := by
  have hcodes : ∀ n ∈ blankCodes, n < 65 ∨ 122 < n := by decide
  have hbounds := toNat_of_startsName h
  refine Bool.eq_false_iff.2 fun hblank => ?_
  have := hcodes c.toNat (List.contains_iff_mem.1 hblank)
  omega

theorem isDigit_of_startsName (h : startsName c = true) : Decimal.isDigit c = false := by
  have hbounds := toNat_of_startsName h
  refine Bool.eq_false_iff.2 fun hdigit => ?_
  simp only [Decimal.isDigit, Bool.and_eq_true, decide_eq_true_eq, Char.le_def,
    UInt32.le_iff_toNat_le] at hdigit
  have hle : c.toNat ≤ 57 := hdigit.2
  omega

theorem continuesName_of_isDigit (h : Decimal.isDigit c = true) : continuesName c = true := by
  rw [continuesName, ← Decimal.isDigit, h, Bool.or_true]

/-- A name is a first character and further ones. -/
theorem isName_iff {name : String} : isName name = true ↔ ∃ c cs, name.toList = c :: cs ∧
    startsName c = true ∧ ∀ d ∈ cs, continuesName d = true := by
  unfold isName
  split
  · next h => simp [h]
  · next c cs h => simp [h]

/-- A name goes on as a name with what names go on with. -/
theorem isName_append {name ending : String} (hname : isName name = true)
    (hending : ∀ c ∈ ending.toList, continuesName c = true) : isName (name ++ ending) = true := by
  obtain ⟨c, cs, hlist, hstart, hall⟩ := isName_iff.1 hname
  refine isName_iff.2 ⟨c, cs ++ ending.toList, ?_, hstart, fun d hd => ?_⟩
  · rw [String.toList_append, hlist, List.cons_append]
  · exact (List.mem_append.1 hd).elim (hall d) (hending d)

end Text

/-! ### Reserved names -/

/-- A name that is not reserved is no operator. -/
theorem BinaryOp.ofWord?_eq_none {name : String} (h : name ∉ reservedNames) :
    ofWord? name = none := by
  refine List.find?_eq_none.2 fun op hop heq => h ?_
  obtain rfl := beq_iff_eq.1 heq
  exact List.mem_append_right _ (List.mem_map_of_mem hop)

namespace Expr

open Text

/-- A name that is not reserved is a variable. -/
theorem Rung.nameTree_eq {name : String} (h : name ∉ reservedNames) :
    nameTree name = .variable name := by
  have hconstant : namedConstants.lookup name = none := by
    refine List.lookup_eq_none_iff.2 fun p hp => bne_iff_ne.2 ?_
    rintro rfl
    exact h (List.mem_append_left _ (List.mem_append_right _ (List.mem_map_of_mem hp)))
  unfold nameTree
  rw [hconstant]

/-! ### Names as lexemes -/

theorem pairToken?_of_startsName {c : Char} (h : startsName c = true) (d : Char) :
    pairToken? c d = none := by
  unfold pairToken?
  split <;> first | rfl | exact absurd h (by decide)

/-- A name is the first lexeme of a text if what follows it does not go on with it. -/
theorem lexeme?_name {c : Char} {cs rest : List Char} (hstart : startsName c = true)
    (hall : ∀ d ∈ cs, continuesName d = true) (hrest : ∀ d ∈ rest.head?, continuesName d = false) :
    lexeme? c (cs ++ rest) = some (wordToken (String.ofList (c :: cs)), rest) := by
  have hpair : (cs ++ rest).head?.bind (pairToken? c) = none :=
    Option.bind_eq_none_iff.2 fun d _ => pairToken?_of_startsName hstart d
  have hnumber : startsNumber c (cs ++ rest) = false := by
    have hpoint : (c == '.') = false := by
      refine beq_false_of_ne ?_
      rintro rfl
      exact absurd hstart (by decide)
    rw [startsNumber, isDigit_of_startsName hstart, hpoint, Bool.false_and, Bool.false_or]
  obtain ⟨htake, hdrop⟩ := takeWhile_run hall hrest
  unfold lexeme?
  rw [hpair]
  dsimp only
  rw [hnumber, if_neg Bool.false_ne_true, if_pos hstart, htake, hdrop]

/-- Tokens go on after a name. -/
theorem tokensFrom_name {name : String} (hname : isName name = true)
    (hop : BinaryOp.ofWord? name = none) {rest : List Char}
    (hrest : ∀ d ∈ rest.head?, continuesName d = false) {w : List Token}
    (h : ∀ offset, ∃ ts, tokensFrom offset rest = .ok ts ∧ ts.map (·.token) = w) (offset : Nat) :
    ∃ ts, tokensFrom offset (name.toList ++ rest) = .ok ts ∧
      ts.map (·.token) = .name name :: w := by
  obtain ⟨c, cs, hlist, hstart, hall⟩ := isName_iff.1 hname
  have hword : wordToken (String.ofList (c :: cs)) = .name name := by
    rw [← hlist, String.ofList_toList, wordToken, hop]
  have hlexeme := lexeme?_name hstart hall hrest
  rw [hword] at hlexeme
  rw [hlist]
  exact tokensFrom_cons (isBlank_of_startsName hstart) hlexeme h

/-- A name by itself is one lexeme. -/
theorem tokenize_name {name : String} (hname : isName name = true)
    (hop : BinaryOp.ofWord? name = none) :
    ∃ ts, tokenize name.toList = .ok ts ∧ ts.map (·.token) = [.name name] := by
  have hnothing : ∀ d ∈ ([] : List Char).head?, continuesName d = false := fun _ h => nomatch h
  have htokens : ∃ ts, tokensFrom 0 (name.toList ++ []) = .ok ts ∧
      ts.map (·.token) = [.name name] :=
    tokensFrom_name hname hop hnothing (fun offset => ⟨[], by rw [tokensFrom], rfl⟩) 0
  rwa [List.append_nil] at htokens

/-! ### Names as formulas -/

namespace Rung

variable {inner : Rung} {p : Placed} {ts rest : List Placed} {t : Tree String} {name : String}

/-- What is read with its prefix operators, and nothing goes on with, is a formula of its own. -/
theorem formulaOf_prefixed (hprefixed : prefixed inner ts = .ok t rest) (hrest : Closed rest) :
    (formulaOf inner).read ts = .ok t rest := by
  have hchain : ∀ tiers, (chainOf inner tiers).read ts = .ok t rest := by
    intro tiers
    induction tiers with
    | nil => exact hprefixed
    | cons tier tighter ih =>
      show ((chainOf inner tighter).read ts).andThen _ = _
      rw [ih]
      exact furtherFrom_of_ends hrest.ends
  show ((chainOf inner Tier.all).read ts).andThen _ = _
  rw [hchain]
  exact branches_of_closed hrest

/-- A primary that nothing goes on with has no prefix operators. -/
theorem prefixed_primary (hopens : ∃ q ∈ ts.head?, isPlus q = false ∧ prefixOp? q.token = none)
    (hprimary : primary inner ts = .ok t rest) (hrest : Closed rest) :
    prefixed inner ts = .ok t rest := by
  obtain ⟨q, hq, hplus, hsign⟩ := hopens
  have hends : Ends [] rest := hrest.ends
  obtain ⟨tail, rfl⟩ : ∃ tail, ts = q :: tail := List.head?_eq_some_iff.1 hq
  unfold prefixed
  rw [List.dropWhile_cons_of_neg (by rw [hplus]; exact Bool.false_ne_true)]
  dsimp only
  rw [hsign]
  dsimp only
  unfold power
  rw [hprimary]
  exact exponent_of_ends hends

/-- A primary that nothing goes on with is a formula of its own. -/
theorem formulaOf_primary (hopens : ∃ q ∈ ts.head?, isPlus q = false ∧ prefixOp? q.token = none)
    (hprimary : primary inner ts = .ok t rest) (hrest : Closed rest) :
    (formulaOf inner).read ts = .ok t rest :=
  formulaOf_prefixed (prefixed_primary hopens hprimary hrest) hrest

/-- A name that nothing goes on with is a formula of its own. -/
theorem formulaOf_name (hp : p.token = .name name) (hrest : Closed rest) :
    (formulaOf inner).read (p :: rest) = .ok (nameTree name) rest := by
  have hcall : ¬rest.head?.any (·.token = .mark .leftParen) = true := by
    intro hany
    obtain ⟨q, hq, hparen⟩ := (Option.any_eq_true _ _).1 hany
    have hends : Ends [] rest := hrest.ends
    exact hends.1 q hq (of_decide_eq_true hparen)
  refine formulaOf_primary ⟨p, rfl, ?_, ?_⟩ ?_ hrest
  · rw [isPlus, hp]
    rfl
  · rw [hp]
    rfl
  · unfold primary
    dsimp only
    rw [hp]
    dsimp only
    rw [if_neg hcall]

end Rung

/-- A formula that takes all tokens is the tree of a text. -/
theorem treeOfTokens_of_formula {ts : List Placed} {t : Tree String}
    (h : (Rung.ofLevels maxDepth).formula.read ts = .ok t []) : treeOfTokens ts = .ok t [] := by
  unfold treeOfTokens Reader.list
  rw [h]
  unfold Reader.more
  rfl

/-- A text whose tokens make up a formula is read as that formula. -/
theorem Formula.parse_of_formula {text : String} {w : List Token} {t : Tree String}
    (hw : ∃ ts, tokenize text.toList = .ok ts ∧ ts.map (·.token) = w)
    (h : ∀ ts : List Placed, ts.map (·.token) = w →
      (Rung.ofLevels maxDepth).formula.read ts = .ok t []) :
    Formula.parse text = .ok ⟨text, t⟩ := by
  obtain ⟨ts, hts, hw⟩ := hw
  unfold Formula.parse
  rw [hts]
  dsimp only
  rw [treeOfTokens_of_formula (h ts hw)]

/-- **Names**: a text that is a name and is not reserved is read as the variable of that name. -/
theorem Formula.parse_name {name : String} (hname : isName name = true)
    (hfree : name ∉ reservedNames) : Formula.parse name = .ok ⟨name, .variable name⟩ := by
  have htokens := tokenize_name hname (BinaryOp.ofWord?_eq_none hfree)
  refine parse_of_formula htokens fun ts hw => ?_
  obtain ⟨p, rfl, hp⟩ := List.map_eq_singleton_iff.1 hw
  have hread : (Rung.formulaOf (.ofLevels (maxDepth - 1))).read [p] =
      .ok (Rung.nameTree name) [] := Rung.formulaOf_name hp closed_nil
  rw [Rung.nameTree_eq hfree] at hread
  exact hread

end Expr

end MapAlgebra
