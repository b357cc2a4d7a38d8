import MapAlgebra.Proofs.Expr.Lexeme
import MapAlgebra.Proofs.Expr.Relocation
import MapAlgebra.Proofs.Result
import Mathlib.Data.List.Pairwise

/-!
# Texts cut into lexemes

A text that is cut into tokens is their lexemes one after the other, with blanks between them.
Main statement: **`Formula.segmentation`**. Every character that is no blank is in the lexeme of
exactly one token, each lexeme is the longest that starts at its place, and the cut fails where no
lexeme starts. Blanks may be put in wherever no lexeme is torn apart.

A cut goes through the text from one place to another (`Cut`), and the lexemes of a text determine
it, so the tokens of a text are those of its cut (`tokenize_eq_ok_iff`). Blanks that are put in move
the cut behind them (`Cut.moved`).
-/

namespace MapAlgebra.Expr

open Text

variable {text l : List Char} {t : Token} {start stop i : Nat} {ts : List Placed} {p q : Placed}

/-! ### Cuts -/

/-- From one place to another a text is blanks and lexemes, and these are the tokens. -/
inductive Cut (text : List Char) : Nat → Nat → List Placed → Prop where
  /-- Nothing is left. -/
  | done (place : Nat) : Cut text place place []
  /-- A blank comes next. -/
  | blank {start stop : Nat} {ts : List Placed} {c : Char} : text[start]? = some c →
      isBlank c = true → Cut text (start + 1) stop ts → Cut text start stop ts
  /-- A lexeme comes next. -/
  | lexeme {start stop : Nat} {ts : List Placed} {l : List Char} {t : Token} :
      IsLexeme (text.drop start) l t → Cut text (start + l.length) stop ts →
      Cut text start stop (⟨t, start⟩ :: ts)

theorem IsLexeme.length_pos (h : IsLexeme text l t) : 0 < l.length :=
  List.length_pos_of_ne_nil h.spells.isBlank.1

/-- A lexeme ends where the text goes on. -/
theorem IsLexeme.drop (h : IsLexeme (text.drop start) l t) :
    text.drop start = l ++ text.drop (start + l.length) := by
  obtain ⟨rest, hrest⟩ := h.begins
  rw [← List.drop_drop, ← hrest, List.drop_left]

theorem Cut.le (h : Cut text start stop ts) : start ≤ stop := by
  induction h with
  | done => exact Nat.le_refl _
  | blank _ _ _ ih => omega
  | lexeme _ _ ih => omega

/-- The tokens of a cut start in its part of the text, and their lexemes end there. -/
theorem Cut.bounds (h : Cut text start stop ts) : ∀ p ∈ ts, start ≤ p.offset ∧
    ∃ l, IsLexeme (text.drop p.offset) l p.token ∧ p.offset + l.length ≤ stop := by
  induction h with
  | done => exact List.forall_mem_nil _
  | blank _ _ _ ih => exact fun p hp => ⟨by have := (ih p hp).1; omega, (ih p hp).2⟩
  | lexeme hlexeme hcut ih =>
    refine List.forall_mem_cons.2 ⟨⟨Nat.le_refl _, _, hlexeme, hcut.le⟩, fun p hp => ?_⟩
    exact ⟨by have := (ih p hp).1; omega, (ih p hp).2⟩

/-- Each token starts behind the lexemes of those before it. -/
theorem Cut.behind (h : Cut text start stop ts) : ts.Pairwise fun p q =>
    ∀ l, IsLexeme (text.drop p.offset) l p.token → p.offset + l.length ≤ q.offset := by
  induction h with
  | done => exact .nil
  | blank _ _ _ ih => exact ih
  | lexeme hlexeme hcut ih =>
    refine .cons (fun q hq l hl => ?_) ih
    obtain ⟨rfl, -⟩ := hl.unique hlexeme
    exact (hcut.bounds q hq).1

/-! ### Characters in lexemes -/

/-- A character of a text is in the lexeme of a token. -/
def Covers (text : List Char) (p : Placed) (i : Nat) : Prop :=
  ∃ l, IsLexeme (text.drop p.offset) l p.token ∧ p.offset ≤ i ∧ i < p.offset + l.length

/-- No lexeme has a blank. -/
theorem Covers.isBlank (h : Covers text p i) {c : Char} (hc : text[i]? = some c) :
    isBlank c = false := by
  obtain ⟨l, hlexeme, hle, hlt⟩ := h
  refine hlexeme.spells.isBlank.2 c (List.mem_of_getElem? (i := i - p.offset) ?_)
  have hget : (text.drop p.offset)[i - p.offset]? = some c := by
    rw [List.getElem?_drop, Nat.add_sub_cancel' hle, hc]
  rwa [hlexeme.drop, List.getElem?_append_left (by omega)] at hget

/-- The lexemes of a cut have every character that is no blank. -/
theorem Cut.covered (h : Cut text start stop ts) {c : Char} (hle : start ≤ i) (hlt : i < stop)
    (hc : text[i]? = some c) (hblank : Text.isBlank c = false) : ∃ p ∈ ts, Covers text p i := by
  induction h with
  | done => omega
  | @blank start stop ts d hd hd' _ ih =>
    refine ih ?_ hlt
    rcases Nat.eq_or_lt_of_le hle with rfl | hlt
    · obtain rfl := Option.some.inj (hd.symm.trans hc)
      rw [hd'] at hblank
      cases hblank
    · exact hlt
  | @lexeme start stop ts l t hlexeme hcut ih =>
    by_cases hin : i < start + l.length
    · exact ⟨_, List.mem_cons_self, l, hlexeme, hle, hin⟩
    · obtain ⟨p, hp, hcovers⟩ := ih (Nat.le_of_not_lt hin) hlt
      exact ⟨p, List.mem_cons_of_mem _ hp, hcovers⟩

/-- No two lexemes of a cut have a character in common. -/
theorem Cut.eq_of_covers (h : Cut text start stop ts) (hp : p ∈ ts) (hq : q ∈ ts)
    (hp' : Covers text p i) (hq' : Covers text q i) : p = q := by
  by_contra hne
  have hsymm : Std.Symm fun p q => ∀ i, Covers text p i → ¬Covers text q i :=
    ⟨fun _ _ h i hq hp => h i hp hq⟩
  have hapart : ts.Pairwise fun p q => ∀ i, Covers text p i → ¬Covers text q i := by
    refine h.behind.imp ?_
    rintro p q hbehind i ⟨l, hl, -, hlt⟩ ⟨-, -, hle, -⟩
    have := hbehind l hl
    omega
  exact hapart.forall hp hq hne i hp' hq'

/-- A text is cut into the lexemes of some tokens, up to a place. -/
structure Segmented (text : List Char) (stop : Nat) (ts : List Placed) : Prop where
  /-- The tokens start one after the other, and the end comes last. -/
  increasing : (ts.map (·.offset) ++ [stop]).Pairwise (· < ·)
  /-- Each is the longest lexeme that starts at its place, and its lexeme ends before the end. -/
  lexeme : ∀ p ∈ ts, ∃ l, IsLexeme (text.drop p.offset) l p.token ∧ p.offset + l.length ≤ stop
  /-- Every character that is no blank is in exactly one lexeme. -/
  covered : ∀ i < stop, ∀ c, text[i]? = some c → Text.isBlank c = false →
    ∃! p, p ∈ ts ∧ Covers text p i
  /-- No lexeme has a blank. -/
  blankless : ∀ p ∈ ts, ∀ i c, Covers text p i → text[i]? = some c → Text.isBlank c = false

theorem Cut.segmented (h : Cut text 0 stop ts) : Segmented text stop ts where
  increasing := by
    refine List.pairwise_append.2 ⟨List.pairwise_map.2 ?_, List.pairwise_singleton _ _, ?_⟩
    · refine h.behind.imp_of_mem fun {p q} hp _ hbehind => ?_
      obtain ⟨-, l, hl, -⟩ := h.bounds p hp
      have := hl.length_pos
      have := hbehind l hl
      omega
    · intro n hn m hm
      obtain ⟨p, hp, rfl⟩ := List.mem_map.1 hn
      obtain rfl := List.mem_singleton.1 hm
      obtain ⟨-, l, hl, hle⟩ := h.bounds p hp
      have := hl.length_pos
      omega
  lexeme p hp := (h.bounds p hp).2
  covered i hi c hc hblank := by
    obtain ⟨p, hp, hcovers⟩ := h.covered (Nat.zero_le i) hi hc hblank
    exact ⟨p, ⟨hp, hcovers⟩, fun q hq => h.eq_of_covers hq.1 hp hq.2 hcovers⟩
  blankless p _ i c hcovers hc := hcovers.isBlank hc

/-! ### The cut of a text -/

/-- What is left of a text at a place where a character stands. -/
theorem drop_succ {c : Char} {cs : List Char} (h : text.drop start = c :: cs) :
    text[start]? = some c ∧ text.drop (start + 1) = cs := by
  refine ⟨?_, ?_⟩
  · rw [← List.head?_drop, h, List.head?_cons]
  · rw [← List.drop_drop, h, List.drop_one, List.tail_cons]

/-- What the reader of lexemes takes is the lexeme at a place, and it goes on behind it. -/
theorem lexeme_of_drop {c : Char} {cs rest : List Char} (hcs : text.drop start = c :: cs)
    (h : lexeme? c cs = some (t, rest)) : ∃ l, IsLexeme (text.drop start) l t ∧
      start + (cs.length + 1 - rest.length) = start + l.length ∧
      text.drop (start + l.length) = rest := by
  obtain ⟨l, hl, hlexeme⟩ := lexeme?_eq_some_iff.1 h
  have hlength := congrArg List.length hl
  rw [List.length_cons, List.length_append] at hlength
  refine ⟨l, hcs ▸ hlexeme, by omega, ?_⟩
  rw [← List.drop_drop, hcs, hl, List.drop_left]

/-- The tokens of a text are cut from it. -/
theorem cut_of_tokensFrom {cs : List Char} (hcs : text.drop start = cs)
    (hle : start ≤ text.length) (h : tokensFrom start cs = .ok ts) :
    Cut text start text.length ts := by
  fun_induction tokensFrom start cs generalizing ts with
  | case1 start =>
    cases h
    obtain rfl : start = text.length := Nat.le_antisymm hle (List.drop_eq_nil_iff.1 hcs)
    exact .done _
  | case2 start c cs hblank ih =>
    obtain ⟨hc, hcs⟩ := drop_succ hcs
    exact .blank hc hblank (ih hcs (List.getElem?_eq_some_iff.1 hc).1 h)
  | case3 => cases h
  | case4 start c cs hblank t rest hread hle' ts hts ih =>
    cases h
    obtain ⟨l, hlexeme, hend, hdrop⟩ := lexeme_of_drop hcs hread
    have hlength := congrArg List.length hlexeme.drop
    rw [List.length_append, List.length_drop, List.length_drop] at hlength
    have hpos := hlexeme.length_pos
    rw [hend] at ih hts
    exact .lexeme hlexeme (ih hdrop (by omega) hts)
  | case5 => cases h

/-- No lexeme starts at a place of a text, though a character stands there that is no blank. -/
def Stray (text : List Char) (place : Nat) (c : Char) : Prop :=
  text[place]? = some c ∧ isBlank c = false ∧ ∀ l t, l <+: text.drop place → ¬Spells l t

/-- Where no lexeme starts, the text has been cut up to there. -/
theorem stray_of_tokensFrom {cs : List Char} {e : SyntaxError} (hcs : text.drop start = cs)
    (h : tokensFrom start cs = .error e) : ∃ ts c, Cut text start e.position ts ∧
      e.cause = .strayCharacter c ∧ Stray text e.position c := by
  fun_induction tokensFrom start cs with
  | case1 => cases h
  | case2 start c cs hblank ih =>
    obtain ⟨hc, hcs⟩ := drop_succ hcs
    obtain ⟨ts, d, hcut, hstray⟩ := ih hcs h
    exact ⟨ts, d, .blank hc hblank hcut, hstray⟩
  | case3 start c cs hblank hread =>
    cases h
    have hfault : lexemeFault c cs = .strayCharacter c := by
      rw [lexemeFault, startsNumber_of_lexeme? hread, if_neg Bool.false_ne_true]
    refine ⟨[], c, .done start, hfault, (drop_succ hcs).1, Bool.eq_false_iff.2 hblank, ?_⟩
    intro l t hl
    rw [hcs] at hl
    exact not_spells_of_lexeme? hread hl
  | case4 => cases h
  | case5 start c cs hblank t rest hread hle e' he ih =>
    cases h
    obtain ⟨l, hlexeme, hend, hdrop⟩ := lexeme_of_drop hcs hread
    rw [hend] at ih he
    obtain ⟨ts, d, hcut, hstray⟩ := ih hdrop he
    exact ⟨_, d, .lexeme hlexeme hcut, hstray⟩

/-- The lexemes of a text determine its tokens. -/
theorem Cut.tokensFrom (h : Cut text start stop ts) (hstop : stop = text.length) :
    tokensFrom start (text.drop start) = .ok ts := by
  induction h with
  | done place =>
    rw [hstop, List.drop_length, Expr.tokensFrom]
  | @blank start stop ts c hc hblank _ ih =>
    obtain ⟨hlt, rfl⟩ := List.getElem?_eq_some_iff.1 hc
    rw [List.drop_eq_getElem_cons hlt, Expr.tokensFrom, if_pos hblank, ih hstop]
  | @lexeme start stop ts l t hlexeme _ ih =>
    obtain ⟨hne, hblanks⟩ := hlexeme.spells.isBlank
    obtain ⟨c, tail, rfl⟩ := List.exists_cons_of_ne_nil hne
    have hdrop := hlexeme.drop
    rw [List.cons_append] at hdrop
    rw [hdrop] at hlexeme ⊢
    have hread := lexeme?_eq_some_iff.2 ⟨_, (List.cons_append ..).symm, hlexeme⟩
    have hend : (tail ++ text.drop (start + (c :: tail).length)).length + 1 -
        (text.drop (start + (c :: tail).length)).length = (c :: tail).length := by
      rw [List.length_append, List.length_cons]
      omega
    rw [Expr.tokensFrom, hblanks c List.mem_cons_self, if_neg Bool.false_ne_true]
    split
    · next h =>
      rw [hread] at h
      cases h
    · next t' rest' h =>
      rw [hread] at h
      cases h
      rw [hend, ih hstop]

/-- **Cuts**: the tokens of a text are those of its cut. -/
theorem tokenize_eq_ok_iff : tokenize text = .ok ts ↔ Cut text 0 text.length ts :=
  ⟨fun h => cut_of_tokensFrom List.drop_zero (Nat.zero_le _) h, fun h => h.tokensFrom rfl⟩

/-! ### Blanks that are put in -/

/-- Where a character stands, or the end, after `n` characters have been put in at the place `k`. -/
def movedPlace (k n i : Nat) : Nat := if i < k then i else i + n

/-- Where a token stands after characters have been put in. -/
def Placed.moved (k n : Nat) (p : Placed) : Placed := ⟨p.token, movedPlace k n p.offset⟩

/-- No lexeme of some tokens is torn apart at a place. -/
def Seam (text : List Char) (ts : List Placed) (k : Nat) : Prop :=
  ∀ p ∈ ts, ∀ l, IsLexeme (text.drop p.offset) l p.token → k ≤ p.offset ∨ p.offset + l.length ≤ k

variable {before blanks after : List Char}

/-- Behind what is put in, a text goes on as before. -/
theorem drop_behind (hle : before.length ≤ start) :
    (before ++ (blanks ++ after)).drop (start + blanks.length) = (before ++ after).drop start := by
  obtain ⟨n, rfl⟩ := Nat.exists_eq_add_of_le hle
  rw [Nat.add_assoc, Nat.add_comm n, List.drop_length_add_append, List.drop_length_add_append,
    List.drop_length_add_append]

/-- The cut behind the blanks is moved. -/
theorem Cut.behind_blanks (h : Cut (before ++ after) start stop ts) (hle : before.length ≤ start) :
    Cut (before ++ (blanks ++ after)) (start + blanks.length) (stop + blanks.length)
      (ts.map (·.moved before.length blanks.length)) := by
  induction h with
  | done => exact .done _
  | @blank start stop ts c hc hblank _ ih =>
    refine .blank ?_ hblank ?_
    · rw [← List.head?_drop, drop_behind hle, List.head?_drop, hc]
    · rw [Nat.add_right_comm]
      exact ih (Nat.le_succ_of_le hle)
  | @lexeme start stop ts l t hlexeme _ ih =>
    have hmoved : (Placed.mk t start).moved before.length blanks.length =
        ⟨t, start + blanks.length⟩ := by
      rw [Placed.moved, movedPlace, if_neg (Nat.not_lt_of_le hle)]
    rw [List.map_cons, hmoved]
    refine .lexeme (by rwa [drop_behind hle]) ?_
    rw [Nat.add_right_comm]
    exact ih (Nat.le_add_right_of_le hle)

/-- Blanks come before a cut. -/
theorem Cut.after_blanks (hblanks : ∀ d ∈ blanks, isBlank d = true)
    (h : Cut (before ++ (blanks ++ after)) (before.length + blanks.length) stop ts) :
    Cut (before ++ (blanks ++ after)) before.length stop ts := by
  induction blanks generalizing before with
  | nil => exact h
  | cons d blanks ih =>
    obtain ⟨hd, hblanks⟩ := List.forall_mem_cons.1 hblanks
    refine .blank (c := d) ?_ hd ?_
    · rw [List.getElem?_append_right (Nat.le_refl _), Nat.sub_self]
      rfl
    · have hshift := @ih (before ++ [d]) hblanks
      rw [List.append_assoc, List.length_append, List.length_singleton] at hshift
      refine hshift ?_
      rw [List.length_cons, Nat.add_comm blanks.length, ← Nat.add_assoc] at h
      exact h

/-- Up to a seam, the lexemes of a text are there whatever follows the blanks. -/
theorem IsLexeme.before_blanks (h : IsLexeme ((before ++ after).drop start) l t)
    (hle : start + l.length ≤ before.length) (hblanks : ∀ d ∈ blanks, isBlank d = true) :
    IsLexeme ((before ++ (blanks ++ after)).drop start) l t := by
  have hstart : start ≤ before.length := Nat.le_of_add_right_le hle
  rw [List.drop_append_of_le_length hstart] at h ⊢
  cases blanks with
  | nil => exact h
  | cons d blanks =>
    refine h.of_blank ?_ (hblanks d List.mem_cons_self)
    refine List.prefix_of_prefix_length_le h.begins (List.prefix_append _ _) ?_
    rw [List.length_drop]
    omega

/-- **Blanks put in at a seam**: they move the cut behind them, and nothing else changes. -/
theorem Cut.moved (h : Cut (before ++ after) start stop ts)
    (hblanks : ∀ d ∈ blanks, isBlank d = true) (hstart : start ≤ before.length)
    (hstop : before.length ≤ stop) (hseam : Seam (before ++ after) ts before.length) :
    Cut (before ++ (blanks ++ after)) start (stop + blanks.length)
      (ts.map (·.moved before.length blanks.length)) := by
  -- from the seam on, the cut has been moved
  have here : ∀ {stop : Nat} {ts : List Placed}, Cut (before ++ after) before.length stop ts →
      Cut (before ++ (blanks ++ after)) before.length (stop + blanks.length)
        (ts.map (·.moved before.length blanks.length)) := fun h =>
    (h.behind_blanks (Nat.le_refl _)).after_blanks hblanks
  induction h with
  | done place =>
    obtain rfl : place = before.length := Nat.le_antisymm hstart hstop
    exact here (.done _)
  | @blank start stop ts c hc hblank hcut ih =>
    rcases Nat.eq_or_lt_of_le hstart with rfl | hlt
    · exact here (.blank hc hblank hcut)
    · refine .blank ?_ hblank (ih hlt hstop hseam)
      rw [List.getElem?_append_left hlt] at hc ⊢
      exact hc
  | @lexeme start stop ts l t hlexeme hcut ih =>
    rcases Nat.eq_or_lt_of_le hstart with rfl | hlt
    · exact here (.lexeme hlexeme hcut)
    · obtain ⟨hfirst, hlater⟩ := List.forall_mem_cons.1 hseam
      have hle : start + l.length ≤ before.length :=
        (hfirst l hlexeme).resolve_left (Nat.not_le_of_lt hlt)
      have hstay : (Placed.mk t start).moved before.length blanks.length = ⟨t, start⟩ := by
        rw [Placed.moved, movedPlace, if_pos hlt]
      rw [List.map_cons, hstay]
      exact .lexeme (hlexeme.before_blanks hle hblanks) (ih hle hstop hlater)

/-- Where a token starts, none is torn apart. -/
theorem Cut.seam (h : Cut text start stop ts) (hp : p ∈ ts) : Seam text ts p.offset := by
  induction h with
  | done => cases hp
  | blank _ _ _ ih => exact ih hp
  | @lexeme start stop ts l t hlexeme hcut ih =>
    rcases List.mem_cons.1 hp with rfl | hp
    · intro q hq l' _
      exact Or.inl ((Cut.lexeme hlexeme hcut).bounds q hq).1
    · refine List.forall_mem_cons.2 ⟨fun l' hl' => Or.inr ?_, ih hp⟩
      obtain ⟨rfl, -⟩ := hl'.unique hlexeme
      exact (hcut.bounds p hp).1

namespace Formula

/-- What a text is read as after blanks have been put in: the same tree, and the same fault where it
now stands. -/
def movedResult (k n : Nat) (text : String) :
    Except SyntaxError Formula → Except SyntaxError Formula
  | .ok f => .ok ⟨text, f.tree⟩
  | .error e => .error ⟨movedPlace k n e.position, e.cause⟩

/-- Blanks at a seam of a text that is cut into tokens change neither the tokens nor the tree. -/
theorem parse_moved {before blanks after : String}
    (htokens : tokenize (before ++ after).toList = .ok ts)
    (hseam : Seam (before ++ after).toList ts before.length)
    (hblanks : ∀ c ∈ blanks.toList, isBlank c = true) :
    tokenize (before ++ blanks ++ after).toList =
        .ok (ts.map (·.moved before.length blanks.length)) ∧
      parse (before ++ blanks ++ after) = movedResult before.length blanks.length
        (before ++ blanks ++ after) (parse (before ++ after)) := by
  have hmoved : tokenize (before ++ blanks ++ after).toList =
      .ok (ts.map (·.moved before.length blanks.length)) := by
    have hcut := tokenize_eq_ok_iff.1 htokens
    refine tokenize_eq_ok_iff.2 ?_
    simp only [String.toList_append, List.append_assoc, List.length_append,
      ← String.length_toList] at hcut hseam ⊢
    have hstop := hcut.moved hblanks (Nat.zero_le _) (Nat.le_add_right _ _) hseam
    rwa [Nat.add_assoc, Nat.add_comm after.toList.length] at hstop
  refine ⟨hmoved, ?_⟩
  have hmoves : ∀ p : Placed, (p.moved before.length blanks.length).token = p.token := fun _ => rfl
  have htree := treeOfTokens_moved hmoves ts
  unfold parse
  rw [hmoved, htokens]
  dsimp only
  rw [htree]
  cases treeOfTokens ts with
  | ok tree rest => rfl
  | fault rest cause =>
    cases rest with
    | nil =>
      have hend : movedPlace before.length blanks.length (before ++ after).length =
          (before ++ blanks ++ after).length := by
        simp only [movedPlace, String.length_append]
        split <;> omega
      show Except.error (SyntaxError.mk _ cause) = Except.error (SyntaxError.mk _ cause)
      rw [← hend]
      rfl
    | cons p rest => rfl

/-- **Segmentation**: a text that is cut into tokens is their lexemes, each the longest that starts
at its place, and blanks between them; where the cut fails, it has come to a character at which no
lexeme starts, and never to a numeral that is no number. Blanks may be put in at every seam of the
tokens: these are moved, and the text is read as before. -/
theorem segmentation (text : String) :
    (∀ ts, tokenize text.toList = .ok ts → Segmented text.toList text.length ts) ∧
    (∀ e, tokenize text.toList = .error e → ∃ ts c, e.cause = .strayCharacter c ∧
      Stray text.toList e.position c ∧ Segmented text.toList e.position ts) ∧
    ∀ before blanks after ts, text = before ++ after → tokenize text.toList = .ok ts →
      Seam text.toList ts before.length → (∀ c ∈ blanks.toList, isBlank c = true) →
      tokenize (before ++ blanks ++ after).toList =
          .ok (ts.map (·.moved before.length blanks.length)) ∧
        parse (before ++ blanks ++ after) = movedResult before.length blanks.length
          (before ++ blanks ++ after) (parse text) := by
  refine ⟨fun ts h => ?_, fun e h => ?_, ?_⟩
  · rw [← String.length_toList]
    exact (tokenize_eq_ok_iff.1 h).segmented
  · obtain ⟨ts, c, hcut, hcause, hstray⟩ := stray_of_tokensFrom List.drop_zero h
    exact ⟨ts, c, hcause, hstray, hcut.segmented⟩
  · rintro before blanks after ts rfl htokens hseam hblanks
    exact parse_moved htokens hseam hblanks

/-- A text that is cut, one that is not, and one with wide blanks before an operator. -/
theorem segmentation_sample :
    (∃ ts, tokenize "x1>=2.5e3pow y".toList = .ok ts ∧
      Segmented "x1>=2.5e3pow y".toList 14 ts) ∧
    (∃ e ts c, tokenize "a>=$b".toList = .error e ∧ Stray "a>=$b".toList e.position c ∧
      Segmented "a>=$b".toList e.position ts) ∧
    ∃ f, parse "x1>=y" = .ok f ∧
      parse ("x1" ++ "\u2003 " ++ ">=y") = .ok ⟨"x1\u2003 >=y", f.tree⟩ := by
  have hcut : tokenize "x1>=2.5e3pow y".toList = .ok _ := eq_ok_valueOf (by decide +kernel)
  obtain ⟨e, hstray⟩ := exists_eq_error (x := tokenize "a>=$b".toList) (by decide +kernel)
  obtain ⟨ts, c, -, hc, hsegmented⟩ := (segmentation "a>=$b").2.1 e hstray
  have htokens : tokenize "x1>=y".toList =
      .ok [⟨.name "x1", 0⟩, ⟨.operator .atLeast, 2⟩, ⟨.name "y", 4⟩] :=
    eq_ok_of_toOption (by decide +kernel)
  have hparse : parse "x1>=y" = .ok _ := eq_ok_valueOf (by decide +kernel)
  have hseam := (tokenize_eq_ok_iff.1 htokens).seam
    (p := ⟨.operator .atLeast, 2⟩) (List.mem_cons_of_mem _ List.mem_cons_self)
  have hmoved := ((segmentation "x1>=y").2.2 "x1" "\u2003 " ">=y" _ rfl htokens hseam
    (List.all_eq_true.1 (by decide))).2
  rw [hparse] at hmoved
  exact ⟨⟨_, hcut, (segmentation _).1 _ hcut⟩, ⟨e, ts, c, hstray, hc, hsegmented⟩, _, hparse,
    hmoved⟩

end Formula

end MapAlgebra.Expr
