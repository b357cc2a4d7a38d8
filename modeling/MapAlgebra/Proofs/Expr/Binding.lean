import MapAlgebra.Proofs.Expr.Locality
import MapAlgebra.Proofs.Expr.Renaming
import MapAlgebra.Proofs.Result
import Mathlib.Data.List.Induction

/-!
# Bound names

What binding the names of a formula to slots comes to. Main statement: **`Formula.bind_faithful`**.
A bound formula reads the slots of its names and nothing else, and its value does not depend on
which slots these are, even if one slot serves several names. If a name has no slot, the first such
name is the reason for the failure.

Each binding is compared with one that does not depend on the slots: the names are numbered in the
order of a list that has them all (`Tree.eval_numbered`).
-/

namespace MapAlgebra

/-! ### Lists without repetitions -/

section Distinct

variable {α β : Type} [BEq α] [LawfulBEq α]

/-- One more item at the end of a list. -/
theorem eraseDups_concat (l : List α) (a : α) :
    (l ++ [a]).eraseDups = if l.contains a then l.eraseDups else l.eraseDups ++ [a] := by
  rw [List.eraseDups_append, List.cons_removeAll, List.nil_removeAll]
  cases l.contains a with
  | true => exact List.append_nil _
  | false => rfl

/-- What comes of the items does not depend on repetitions among them. -/
theorem eraseDups_map [BEq β] [LawfulBEq β] (σ : α → β) (l : List α) :
    (l.eraseDups.map σ).eraseDups = (l.map σ).eraseDups := by
  induction l using List.reverseRecOn with
  | nil => rfl
  | append_singleton l a ih =>
    rw [eraseDups_concat, List.map_append, List.map_singleton, eraseDups_concat (l.map σ)]
    cases ha : l.contains a with
    | true =>
      have hσ : (l.map σ).contains (σ a) = true :=
        List.contains_iff_mem.2 (List.mem_map_of_mem (List.contains_iff_mem.1 ha))
      rw [if_pos rfl, if_pos hσ, ih]
    | false =>
      have hσ : (l.eraseDups.map σ).contains (σ a) = (l.map σ).contains (σ a) := by
        rw [Bool.eq_iff_iff]
        simp only [List.contains_iff_mem, List.mem_map, List.mem_eraseDups]
      rw [if_neg Bool.false_ne_true, List.map_append, List.map_singleton, eraseDups_concat, hσ, ih]

/-- The first item of which something comes is not a repetition. -/
theorem findSome?_eraseDups (g : α → Option β) (l : List α) :
    l.eraseDups.findSome? g = l.findSome? g := by
  induction l using List.reverseRecOn with
  | nil => rfl
  | append_singleton l a ih =>
    rw [eraseDups_concat, List.findSome?_append]
    cases ha : l.contains a with
    | false => rw [if_neg Bool.false_ne_true, List.findSome?_append, ih]
    | true =>
      rw [if_pos rfl, ih]
      cases hl : l.findSome? g with
      | some b => rfl
      | none =>
        have hnone := List.findSome?_eq_none_iff.1 hl a (List.contains_iff_mem.1 ha)
        rw [List.findSome?_singleton, hnone, Option.or_none]

end Distinct

namespace Expr

variable {ν μ ε ε' : Type}

/-! ### Failures -/

namespace Tree

variable {f : ν → Except ε μ}

mutual

/-- Replacing the variables of a formula fails as the first replacement that fails. -/
theorem faultOf?_traverse (t : Tree ν) :
    faultOf? (t.traverse f) = t.references.findSome? fun v => faultOf? (f v) := by
  match t with
  | .number _ => rfl
  | .variable v =>
    rw [references, List.findSome?_singleton]
    exact faultOf?_return _ _
  | .unary _ operand => exact (faultOf?_return _ _).trans (faultOf?_traverse operand)
  | .binary _ left right =>
    rw [references, List.findSome?_append]
    exact faultOf?_bind (faultOf?_traverse left) fun _ =>
      (faultOf?_return _ _).trans (faultOf?_traverse right)
  | .choice condition yes no =>
    rw [references, List.findSome?_append, List.findSome?_append, Option.or_assoc]
    exact faultOf?_bind (faultOf?_traverse condition) fun _ =>
      faultOf?_bind (faultOf?_traverse yes) fun _ =>
        (faultOf?_return _ _).trans (faultOf?_traverse no)
  | .call _ args => exact (faultOf?_return _ _).trans (faultOf?_traverseAll args)
  | .matrix _ _ elements => exact (faultOf?_return _ _).trans (faultOf?_traverseAll elements)

theorem faultOf?_traverseAll (ts : List (Tree ν)) :
    faultOf? (traverseAll f ts) = (referencesOfAll ts).findSome? fun v => faultOf? (f v) := by
  match ts with
  | [] => rfl
  | t :: ts =>
    rw [referencesOfAll, List.findSome?_append]
    exact faultOf?_bind (faultOf?_traverse t) fun _ =>
      (faultOf?_return _ _).trans (faultOf?_traverseAll ts)

end

end Tree

/-! ### Numbered names -/

/-- A formula has the value on the slots of its names that it has on the values of the names in
order. -/
theorem Tree.eval_numbered {σ : String → Nat} {names : List String} {value : String → Value}
    {branching : Branching} {s : Array Value} (t : Tree String)
    (hnames : ∀ name ∈ t.references, name ∈ names)
    (hs : ∀ name ∈ t.references, s[σ name]? = some (value name)) :
    (t.rename σ).eval branching s =
      (t.rename names.idxOf).eval branching (names.map value).toArray := by
  -- the name of a number has the slot
  have hslot : ∀ name ∈ t.references, σ (names.getD (names.idxOf name) "") = σ name := by
    intro name hname
    have hlt := List.idxOf_lt_length_of_mem (hnames name hname)
    rw [List.getD_eq_getElem?_getD, List.getElem?_eq_getElem hlt, List.getElem_idxOf hlt,
      Option.getD_some]
  rw [← t.rename_rename (τ := fun n => σ (names.getD n "")) hslot]
  refine Tree.eval_rename _ fun n hn => ?_
  rw [t.references_rename] at hn
  obtain ⟨name, hname, rfl⟩ := List.mem_map.1 hn
  have hlt := List.idxOf_lt_length_of_mem (hnames name hname)
  refine ⟨value name, ?_, ?_⟩
  · rw [List.getElem?_toArray, List.getElem?_map, List.getElem?_eq_getElem hlt,
      List.getElem_idxOf hlt]
    rfl
  · rw [hslot name hname, hs name hname]

/-! ### Bindings -/

/-- The slot of a name, if it has one. -/
def slotOf (ρ : String → Except ε Nat) (name : String) : Nat :=
  match ρ name with
  | .ok slot => slot
  | .error _ => 0

/-- If every name has a slot, the slots of the names are these. -/
theorem slotOf_of_mapM {ρ : String → Except ε Nat} {names : List String} {slots : List Nat}
    (h : names.mapM ρ = .ok slots) :
    (∀ name ∈ names, ∃ slot, ρ name = .ok slot) ∧ names.map (slotOf ρ) = slots := by
  induction names generalizing slots with
  | nil =>
    cases h
    exact ⟨List.forall_mem_nil _, rfl⟩
  | cons name names ih =>
    rw [List.mapM_cons] at h
    obtain ⟨slot, hslot, h⟩ := bind_eq_ok_iff.1 h
    obtain ⟨rest, hrest, h⟩ := bind_eq_ok_iff.1 h
    cases h
    obtain ⟨hall, hmap⟩ := ih hrest
    refine ⟨List.forall_mem_cons.2 ⟨⟨slot, hslot⟩, hall⟩, ?_⟩
    rw [List.map_cons, hmap, slotOf, hslot]

/-- Slot values under two bindings in which each of some names has one value. -/
def FedAlike (names : List String) (ρ : String → Except ε Nat) (ρ' : String → Except ε' Nat)
    (s s' : Array Value) : Prop :=
  ∀ name ∈ names, ∃ slot slot' v,
    ρ name = .ok slot ∧ ρ' name = .ok slot' ∧ s[slot]? = some v ∧ s'[slot']? = some v

namespace Formula

variable {f : Formula} {ρ : String → Except ε Nat} {ρ' : String → Except ε' Nat}

/-- Binding is renaming if every name has a slot. -/
theorem bind_eq_rename (h : ∀ name ∈ f.identifiers, ∃ slot, ρ name = .ok slot) :
    f.bind ρ = .ok ⟨f.tree.rename (slotOf ρ)⟩ := by
  have hslots : ∀ name ∈ f.tree.references, ρ name = .ok (slotOf ρ name) := by
    intro name hname
    obtain ⟨slot, hslot⟩ := h name (List.mem_eraseDups.2 hname)
    rw [slotOf, hslot]
  unfold bind
  rw [f.tree.traverse_eq_rename hslots]

/-- A formula fails to be bound as the first of its names that has no slot. -/
theorem bind_eq_error_iff {e : ε} : f.bind ρ = .error e ↔ ∃ before name after,
    f.identifiers = before ++ name :: after ∧ ρ name = .error e ∧
      ∀ earlier ∈ before, ∃ slot, ρ earlier = .ok slot := by
  have hfault : faultOf? (f.bind ρ) = f.identifiers.findSome? fun name => faultOf? (ρ name) := by
    rw [identifiers, findSome?_eraseDups, ← Tree.faultOf?_traverse, bind]
    cases f.tree.traverse ρ <;> rfl
  rw [← faultOf?_eq_some_iff, hfault, List.findSome?_eq_some_iff]
  simp only [faultOf?_eq_some_iff, faultOf?_eq_none_iff]

/-- Two bindings of a formula give it one value. -/
theorem eval_bind {s s' : Array Value} (h : FedAlike f.identifiers ρ ρ' s s') :
    ∃ p p', f.bind ρ = .ok p ∧ f.bind ρ' = .ok p' ∧ p.evaluate s = p'.evaluate s' ∧
      p.probe s = p'.probe s' := by
  let value := fun name => (s[slotOf ρ name]?).getD (.scalar 0)
  have hmem : ∀ name ∈ f.tree.references, name ∈ f.identifiers := fun _ => List.mem_eraseDups.2
  have hvalue : ∀ name ∈ f.tree.references,
      s[slotOf ρ name]? = some (value name) ∧ s'[slotOf ρ' name]? = some (value name) := by
    intro name hname
    obtain ⟨slot, slot', v, hρ, hρ', hv, hv'⟩ := h name (hmem name hname)
    have hslot : slotOf ρ name = slot := by rw [slotOf, hρ]
    have hslot' : slotOf ρ' name = slot' := by rw [slotOf, hρ']
    have hfirst : value name = v := by
      show (s[slotOf ρ name]?).getD _ = v
      rw [hslot, hv, Option.getD_some]
    rw [hslot, hslot', hfirst]
    exact ⟨hv, hv'⟩
  have heval : ∀ branching, (f.tree.rename (slotOf ρ)).eval branching s =
      (f.tree.rename (slotOf ρ')).eval branching s' := by
    intro branching
    rw [f.tree.eval_numbered hmem fun name hname => (hvalue name hname).1,
      f.tree.eval_numbered hmem fun name hname => (hvalue name hname).2]
  refine ⟨_, _, bind_eq_rename fun name hname => ?_, bind_eq_rename fun name hname => ?_,
    heval .selected, heval .both⟩
  · obtain ⟨slot, _, _, hρ, -⟩ := h name hname
    exact ⟨slot, hρ⟩
  · obtain ⟨_, slot', _, -, hρ', -⟩ := h name hname
    exact ⟨slot', hρ'⟩

/-- The slots of a bound formula are those of its names. -/
theorem slots_bind {slots : List Nat} (h : f.identifiers.mapM ρ = .ok slots) :
    ∃ p, f.bind ρ = .ok p ∧ p.slots = slots.eraseDups := by
  obtain ⟨hall, rfl⟩ := slotOf_of_mapM h
  refine ⟨_, bind_eq_rename hall, ?_⟩
  rw [Program.slots, Tree.references_rename, identifiers, eraseDups_map]

/-- **Binding**: a bound formula reads the slots of its names, in the order of the names, and no
others; what it comes to depends on the values of the names alone, in an evaluation and when it is
probed; and a formula cannot be bound exactly if a name has no slot, for the reason of the first
such name. -/
theorem bind_faithful (f : Formula) (ρ : String → Except ε Nat) (ρ' : String → Except ε' Nat) :
    (∀ slots, f.identifiers.mapM ρ = .ok slots →
      ∃ p, f.bind ρ = .ok p ∧ p.slots = slots.eraseDups) ∧
    (∀ s s', FedAlike f.identifiers ρ ρ' s s' →
      ∃ p p', f.bind ρ = .ok p ∧ f.bind ρ' = .ok p' ∧ p.evaluate s = p'.evaluate s' ∧
        p.probe s = p'.probe s') ∧
    (∀ p s s', f.bind ρ = .ok p → AgreeOn p.slots s s' →
      p.evaluate s = p.evaluate s' ∧ p.probe s = p.probe s') ∧
    ∀ e, f.bind ρ = .error e ↔ ∃ before name after,
      f.identifiers = before ++ name :: after ∧ ρ name = .error e ∧
        ∀ earlier ∈ before, ∃ slot, ρ earlier = .ok slot := by
  refine ⟨fun slots => slots_bind, fun s s' => eval_bind, fun p s s' _ hagree => ?_,
    fun e => bind_eq_error_iff⟩
  have hread : AgreeOn p.tree.references s s' :=
    fun slot hslot => hagree slot (List.mem_eraseDups.2 hslot)
  exact ⟨p.tree.eval_congr hread, p.tree.eval_congr hread⟩

/-- One slot for both names of a formula, a slot for each of them, and a slot for one only. -/
theorem bind_faithful_shared :
    let shared : String → Except String Nat := fun _ => .ok 3
    let apart : String → Except String Nat := fun name => .ok (if name = "a" then 1 else 0)
    let sparse : String → Except String Nat := fun name =>
      if name = "a" then .ok 0 else .error name
    ∃ f, parse "a + b * a" = .ok f ∧ f.identifiers = ["a", "b"] ∧
      (∃ p, f.bind shared = .ok p ∧ p.slots = [3]) ∧
      (∃ p p', f.bind shared = .ok p ∧ f.bind apart = .ok p' ∧
        p.evaluate #[.scalar 0, .scalar 0, .scalar 0, .scalar 2] =
          p'.evaluate #[.scalar 2, .scalar 2]) ∧
      f.bind sparse = .error "b" := by
  intro shared apart sparse
  have hparse : (parse "a + b * a").isOk = true := by decide +kernel
  have hnames : (valueOf _ hparse).identifiers = ["a", "b"] := by decide +kernel +revert
  obtain ⟨hslots, hvalues, -, -⟩ := bind_faithful (valueOf _ hparse) shared apart
  obtain ⟨-, -, -, hfailure⟩ := bind_faithful (valueOf _ hparse) sparse shared
  rw [hnames] at hslots hvalues hfailure
  obtain ⟨p, hp, hread⟩ := hslots [3, 3] rfl
  refine ⟨_, eq_ok_valueOf hparse, hnames, ⟨p, hp, hread⟩, ?_, ?_⟩
  · obtain ⟨p, p', hp, hp', heval, -⟩ := hvalues
      #[.scalar 0, .scalar 0, .scalar 0, .scalar 2] #[.scalar 2, .scalar 2] (by
        intro name hname
        simp only [List.mem_cons, List.not_mem_nil, or_false] at hname
        rcases hname with rfl | rfl
        · exact ⟨3, 1, _, rfl, rfl, rfl, rfl⟩
        · exact ⟨3, 0, _, rfl, rfl, rfl, rfl⟩)
    exact ⟨p, p', hp, hp', heval⟩
  · exact (hfailure "b").2 ⟨["a"], "b", [], rfl, rfl, by simp [sparse]⟩

end Formula

end Expr

end MapAlgebra
