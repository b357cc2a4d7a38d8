import MapAlgebra.Expr.Eval
import MapAlgebra.Proofs.Expr.Soundness
import MapAlgebra.Proofs.Value.Occupied

/-!
# Formulas whose values have cells

The only values that a formula puts together of nothing are its matrices, and the grammar has no
matrix without a row or a row without an element (`Formula.solid_of_parse`). Main statement:
**`Tree.occupied_of_eval`**. A formula of that kind, on slots that hold values with cells, has
nothing but values with cells, whichever branches it takes.
-/

namespace MapAlgebra.Expr

namespace Tree

variable {ν μ ε : Type}

mutual

/-- The formulas that a formula is put together of, itself included. -/
def subterms : Tree ν → List (Tree ν)
  | .number x => [.number x]
  | .variable v => [.variable v]
  | .unary op operand => .unary op operand :: operand.subterms
  | .binary op left right => .binary op left right :: (left.subterms ++ right.subterms)
  | .choice condition yes no =>
    .choice condition yes no :: (condition.subterms ++ yes.subterms ++ no.subterms)
  | .call f args => .call f args :: subtermsOfAll args
  | .matrix rows cols elements => .matrix rows cols elements :: subtermsOfAll elements

/-- The formulas that a list of formulas is put together of. -/
def subtermsOfAll : List (Tree ν) → List (Tree ν)
  | [] => []
  | t :: ts => t.subterms ++ subtermsOfAll ts

end

theorem mem_subterms (t : Tree ν) : t ∈ t.subterms := by
  cases t <;> exact List.mem_cons_self

mutual

/-- Every matrix of a formula has a row and a column. -/
def Solid : Tree ν → Prop
  | .number _ | .variable _ => True
  | .unary _ operand => operand.Solid
  | .binary _ left right => left.Solid ∧ right.Solid
  | .choice condition yes no => condition.Solid ∧ yes.Solid ∧ no.Solid
  | .call _ args => AllSolid args
  | .matrix rows cols elements => 0 < rows ∧ 0 < cols ∧ AllSolid elements

/-- Every matrix of a list of formulas has a row and a column. -/
def AllSolid : List (Tree ν) → Prop
  | [] => True
  | t :: ts => t.Solid ∧ AllSolid ts

end

theorem allSolid_iff {ts : List (Tree ν)} : AllSolid ts ↔ ∀ t ∈ ts, t.Solid := by
  induction ts with
  | nil => exact iff_of_true trivial (List.forall_mem_nil _)
  | cons t ts ih => rw [AllSolid, ih, List.forall_mem_cons]

mutual

/-- What a formula is put together of has rows and columns in its matrices as the formula has. -/
theorem Solid.of_mem_subterms (t : Tree ν) (h : t.Solid) : ∀ u ∈ t.subterms, u.Solid := by
  match t with
  | .number _ | .variable _ => exact List.forall_mem_singleton.2 trivial
  | .unary _ operand =>
    exact List.forall_mem_cons.2 ⟨h, of_mem_subterms operand h⟩
  | .binary _ left right =>
    exact List.forall_mem_cons.2 ⟨h, List.forall_mem_append.2
      ⟨of_mem_subterms left h.1, of_mem_subterms right h.2⟩⟩
  | .choice condition yes no =>
    exact List.forall_mem_cons.2 ⟨h, List.forall_mem_append.2 ⟨List.forall_mem_append.2
      ⟨of_mem_subterms condition h.1, of_mem_subterms yes h.2.1⟩, of_mem_subterms no h.2.2⟩⟩
  | .call _ args => exact List.forall_mem_cons.2 ⟨h, of_mem_subtermsOfAll args h⟩
  | .matrix _ _ elements => exact List.forall_mem_cons.2 ⟨h, of_mem_subtermsOfAll elements h.2.2⟩

theorem Solid.of_mem_subtermsOfAll (ts : List (Tree ν)) (h : AllSolid ts) :
    ∀ u ∈ subtermsOfAll ts, u.Solid := by
  match ts with
  | [] => exact List.forall_mem_nil _
  | t :: ts =>
    exact List.forall_mem_append.2 ⟨of_mem_subterms t h.1, of_mem_subtermsOfAll ts h.2⟩

end

/-! ### Binding -/

variable {f : ν → Except ε μ}

mutual

/-- Replacing variables leaves the matrices as large as they are. -/
theorem Solid.traverse (t : Tree ν) (h : t.Solid) {t' : Tree μ} (ht : t.traverse f = .ok t') :
    t'.Solid := by
  match t with
  | .number _ =>
    cases ht
    trivial
  | .variable _ =>
    obtain ⟨v, -, ht⟩ := bind_eq_ok_iff.1 ht
    cases ht
    trivial
  | .unary _ operand =>
    obtain ⟨u, hu, ht⟩ := bind_eq_ok_iff.1 ht
    cases ht
    show u.Solid
    exact traverse operand h hu
  | .binary _ left right =>
    obtain ⟨l, hl, ht⟩ := bind_eq_ok_iff.1 ht
    obtain ⟨r, hr, ht⟩ := bind_eq_ok_iff.1 ht
    cases ht
    exact ⟨traverse left h.1 hl, traverse right h.2 hr⟩
  | .choice condition yes no =>
    obtain ⟨c, hc, ht⟩ := bind_eq_ok_iff.1 ht
    obtain ⟨y, hy, ht⟩ := bind_eq_ok_iff.1 ht
    obtain ⟨n, hn, ht⟩ := bind_eq_ok_iff.1 ht
    cases ht
    exact ⟨traverse condition h.1 hc, traverse yes h.2.1 hy, traverse no h.2.2 hn⟩
  | .call _ args =>
    obtain ⟨as, has, ht⟩ := bind_eq_ok_iff.1 ht
    cases ht
    exact traverseAll args h has
  | .matrix _ _ elements =>
    obtain ⟨es, hes, ht⟩ := bind_eq_ok_iff.1 ht
    cases ht
    exact ⟨h.1, h.2.1, traverseAll elements h.2.2 hes⟩

theorem Solid.traverseAll (ts : List (Tree ν)) (h : AllSolid ts) {ts' : List (Tree μ)}
    (hts : traverseAll f ts = .ok ts') : AllSolid ts' := by
  match ts with
  | [] =>
    cases hts
    trivial
  | t :: ts =>
    obtain ⟨u, hu, hts⟩ := bind_eq_ok_iff.1 hts
    obtain ⟨us, hus, hts⟩ := bind_eq_ok_iff.1 hts
    cases hts
    exact ⟨traverse t h.1 hu, traverseAll ts h.2 hus⟩

end

/-! ### Values -/

variable {slots : Array Value}

mutual

/-- **Values**: a formula whose matrices have rows and columns makes values with cells of slots that
hold values with cells. -/
theorem occupied_of_eval {branching : Branching} (hslots : ∀ v ∈ slots, v.Occupied) (t : Tree Nat)
    (h : t.Solid) {v : Value} (hv : t.eval branching slots = .ok v) : v.Occupied := by
  match t with
  | .number x =>
    cases hv
    exact Value.occupied_scalar x
  | .variable slot =>
    simp only [eval] at hv
    split at hv
    · next u hu =>
      cases hv
      exact hslots _ (Array.mem_of_getElem? hu)
    · cases hv
  | .unary op operand =>
    simp only [eval] at hv
    obtain ⟨a, ha, hv⟩ := bind_eq_ok_iff.1 hv
    cases hv
    exact (occupied_of_eval hslots operand h ha).map _
  | .binary op left right =>
    simp only [eval] at hv
    obtain ⟨a, ha, hv⟩ := bind_eq_ok_iff.1 hv
    obtain ⟨b, hb, hv⟩ := bind_eq_ok_iff.1 hv
    exact BinaryOp.occupied_of_apply (occupied_of_eval hslots left h.1 ha)
      (occupied_of_eval hslots right h.2 hb) hv
  | .choice condition yes no =>
    simp only [eval] at hv
    obtain ⟨c, -, hv⟩ := bind_eq_ok_iff.1 hv
    obtain ⟨x, -, hv⟩ := bind_eq_ok_iff.1 hv
    cases branching with
    | selected =>
      simp only at hv
      split at hv
      · exact occupied_of_eval hslots yes h.2.1 hv
      · exact occupied_of_eval hslots no h.2.2 hv
    | both =>
      obtain ⟨a, ha, hv⟩ := bind_eq_ok_iff.1 hv
      obtain ⟨b, -, hv⟩ := bind_eq_ok_iff.1 hv
      unfold commonBranch at hv
      split at hv <;> cases hv
      exact occupied_of_eval hslots yes h.2.1 ha
  | .call f args =>
    simp only [eval] at hv
    obtain ⟨as, has, hv⟩ := bind_eq_ok_iff.1 hv
    exact Function.occupied_of_apply (occupied_of_evalAll hslots args h has) hv
  | .matrix rows cols elements =>
    simp only [eval] at hv
    obtain ⟨xs, -, hv⟩ := bind_eq_ok_iff.1 hv
    obtain ⟨m, hm, hv⟩ := bind_eq_ok_iff.1 hv
    cases hv
    unfold Matrix.ofCells Matrix.ofCells? at hm
    split at hm
    · next m' hm' =>
      cases hm
      split at hm' <;> cases hm'
      exact ⟨h.1, h.2.1⟩
    · cases hm

theorem occupied_of_evalAll {branching : Branching} (hslots : ∀ v ∈ slots, v.Occupied)
    (ts : List (Tree Nat)) (h : AllSolid ts) {vs : List Value}
    (hvs : evalAll branching slots ts = .ok vs) : ∀ v ∈ vs, v.Occupied := by
  match ts with
  | [] =>
    cases hvs
    exact List.forall_mem_nil _
  | t :: ts =>
    simp only [evalAll] at hvs
    obtain ⟨a, ha, hvs⟩ := bind_eq_ok_iff.1 hvs
    obtain ⟨as, has, hvs⟩ := bind_eq_ok_iff.1 hvs
    cases hvs
    exact List.forall_mem_cons.2
      ⟨occupied_of_eval hslots t h.1 ha, occupied_of_evalAll hslots ts h.2 has⟩

end

end Tree

/-! ### The grammar -/

/-- What a phrase denotes has rows and columns in its matrices: there are items, and no row is
without an element. -/
def Phrase.Solid : Phrase → Prop
  | .formula t | .chain _ t | .operand t | .power t | .primary t => t.Solid
  | .items _ ts => ts ≠ [] ∧ ∀ t ∈ ts, t.Solid
  | .rows rs => ∀ row ∈ rs, row ≠ [] ∧ ∀ t ∈ row, t.Solid

/-- The grammar has no matrix without a row or a column. -/
theorem Derives.solid {p : Phrase} {w : List Token} (h : Derives p w) : p.Solid := by
  induction h with
  | unconditional _ ih | unary _ ih | tighter _ ih | unprefixed _ ih | base _ ih | plus _ ih
  | group _ ih | negate _ ih | not _ ih => exact ih
  | conditional _ _ _ ihcondition ihyes ihno => exact ⟨ihcondition, ihyes, ihno⟩
  | binary _ _ _ ihleft ihright | raised _ _ _ ihleft ihright => exact ⟨ihleft, ihright⟩
  | number _ => trivial
  | constant _ => trivial
  | named _ => trivial
  | call _ _ _ ih => exact Tree.allSolid_iff.2 ih.2
  | @matrix rows cols _ hrows hcols ih =>
    have helements : ∀ t ∈ rows.flatten, t.Solid := by
      intro t ht
      obtain ⟨row, hrow, ht⟩ := List.mem_flatten.1 ht
      exact (ih row hrow).2 t ht
    obtain ⟨first, rest, hfirst⟩ := List.exists_cons_of_ne_nil hrows.rows_ne_nil
    have hmem : first ∈ rows := hfirst ▸ List.mem_cons_self
    have hcols : 0 < cols := hcols first hmem ▸ List.length_pos_of_ne_nil (ih first hmem).1
    exact ⟨List.length_pos_of_ne_nil hrows.rows_ne_nil, hcols, Tree.allSolid_iff.2 helements⟩
  | item _ ih => exact ⟨List.cons_ne_nil _ _, List.forall_mem_singleton.2 ih⟩
  | items _ _ ihfirst ihrest =>
    exact ⟨List.cons_ne_nil _ _, List.forall_mem_cons.2 ⟨ihfirst, ihrest.2⟩⟩
  | row _ ih => exact List.forall_mem_singleton.2 ih
  | rows _ _ ihfirst ihrest => exact List.forall_mem_cons.2 ⟨ihfirst, ihrest⟩

theorem solid_sequenceTree {ts : List (Tree String)} (h : ∀ t ∈ ts, t.Solid) :
    (sequenceTree ts).Solid := by
  unfold sequenceTree
  split
  · exact h _ List.mem_cons_self
  · exact Tree.allSolid_iff.2 h

theorem Sequence.solid {w : List Token} {t : Tree String} (h : Sequence w t) : t.Solid := by
  cases h with
  | plain h | closed h => exact solid_sequenceTree h.solid.2

/-- Every matrix of a formula that has been read has a row and a column. -/
theorem Formula.solid_of_parse {text : String} {f : Formula} (h : parse text = .ok f) :
    f.tree.Solid := by
  unfold parse at h
  split at h
  · cases h
  · split at h
    · next tree rest htree =>
      cases h
      exact (derives_of_treeOfTokens htree).2.solid
    · cases h

/-- Binding a formula leaves its matrices as large as they are. -/
theorem Formula.solid_of_bind {ε : Type} {f : Formula} {ρ : String → Except ε Nat} {p : Program}
    (hf : f.tree.Solid) (h : f.bind ρ = .ok p) : p.tree.Solid := by
  unfold bind at h
  split at h
  · next tree htree =>
    cases h
    exact hf.traverse _ htree
  · cases h

end MapAlgebra.Expr
