import Mathlib.Data.List.Forall2

/-!
# Results

A computation that can fail gives a value or a fault. This module has the two ways in which results
are used in proofs: taking apart a computation that succeeded, and following what is known of the
value and of the fault through a computation (`Meets`).
-/

namespace MapAlgebra

variable {ε α β : Type}

/-- A computation in two steps succeeds exactly when both steps do. -/
theorem bind_eq_ok_iff {x : Except ε α} {f : α → Except ε β} {b : β} :
    (x >>= f) = .ok b ↔ ∃ a, x = .ok a ∧ f a = .ok b := by
  constructor
  · intro h
    cases x with
    | ok a => exact ⟨a, rfl, h⟩
    | error e => cases h
  · rintro ⟨a, rfl, h⟩
    exact h

theorem map_eq_ok_iff {x : Except ε α} {f : α → β} {b : β} :
    x.map f = .ok b ↔ ∃ a, x = .ok a ∧ f a = b := by
  cases x <;> simp [Except.map]

theorem map_eq_error_iff {x : Except ε α} {f : α → β} {e : ε} :
    x.map f = .error e ↔ x = .error e := by
  cases x <;> simp [Except.map]

/-- The value of a computation that succeeds. -/
def valueOf : (x : Except ε α) → x.isOk = true → α
  | .ok a, _ => a

theorem eq_ok_valueOf {x : Except ε α} (h : x.isOk = true) : x = .ok (valueOf x h) := by
  cases x with
  | ok a => rfl
  | error e => cases h

theorem exists_eq_error {x : Except ε α} (h : x.isOk = false) : ∃ e, x = .error e := by
  cases x with
  | ok a => cases h
  | error e => exact ⟨e, rfl⟩

theorem eq_ok_of_toOption {x : Except ε α} {a : α} (h : x.toOption = some a) : x = .ok a := by
  cases x with
  | ok b => exact congrArg Except.ok (Option.some.inj h)
  | error e => cases h

/-- The fault of a computation that fails. -/
def faultOf? : Except ε α → Option ε
  | .ok _ => none
  | .error e => some e

theorem eq_error_of_faultOf? {x : Except ε α} {e : ε} (h : faultOf? x = some e) : x = .error e := by
  cases x with
  | ok a => cases h
  | error e' => exact congrArg Except.error (Option.some.inj h)

theorem faultOf?_eq_some_iff {x : Except ε α} {e : ε} : faultOf? x = some e ↔ x = .error e :=
  ⟨eq_error_of_faultOf?, fun h => h ▸ rfl⟩

theorem faultOf?_eq_none_iff {x : Except ε α} : faultOf? x = none ↔ ∃ a, x = .ok a := by
  cases x <;> simp [faultOf?]

/-- What is made of the value of a step does not touch its fault. -/
theorem faultOf?_return (x : Except ε α) (g : α → β) :
    faultOf? (x >>= fun a => pure (g a)) = faultOf? x := by
  cases x <;> rfl

/-- Two steps fail as the first one, or else as the second one. -/
theorem faultOf?_bind {x : Except ε α} {f : α → Except ε β} {o o' : Option ε}
    (hx : faultOf? x = o) (hf : ∀ a, faultOf? (f a) = o') : faultOf? (x >>= f) = o.or o' := by
  subst hx
  cases x with
  | ok a => exact hf a
  | error e => rfl

/-- A result meets `P` and `E` when its value satisfies `P` or its fault satisfies `E`. -/
def Meets (P : α → Prop) (E : ε → Prop) : Except ε α → Prop
  | .ok a => P a
  | .error e => E e

namespace Meets

variable {P : α → Prop} {Q : β → Prop} {E F : ε → Prop}

/-- What a first step meets carries over to a second one that meets the same of faults. -/
theorem bind {x : Except ε α} {f : α → Except ε β} (hx : Meets P E x)
    (hf : ∀ a, P a → Meets Q E (f a)) : Meets Q E (x >>= f) := by
  cases x with
  | ok a => exact hf a hx
  | error e => exact hx

/-- What is done with the value does not touch the fault. -/
theorem map {x : Except ε α} {f : α → β} (hx : Meets P E x) (hf : ∀ a, P a → Q (f a)) :
    Meets Q E (x.map f) := by
  cases x with
  | ok a => exact hf a hx
  | error e => exact hx

/-- Less may be asked of values and faults. -/
theorem mono {P' : α → Prop} {x : Except ε α} (hx : Meets P E x) (hP : ∀ a, P a → P' a)
    (hE : ∀ e, E e → F e) : Meets P' F x := by
  cases x with
  | ok a => exact hP a hx
  | error e => exact hE e hx

/-- A success meets whatever is asked of faults. -/
theorem of_ok {x : Except ε α} {a : α} (hx : x = .ok a) (ha : P a) : Meets P E x := by
  rw [hx]
  exact ha

end Meets

/-! ### Lists -/

/-- Items that pass a test, before one that does not, are those it takes off the front. -/
theorem takeWhile_run {p : α → Bool} {run rest : List α} (hrun : ∀ a ∈ run, p a = true)
    (hrest : ∀ a ∈ rest.head?, p a = false) :
    (run ++ rest).takeWhile p = run ∧ (run ++ rest).dropWhile p = rest := by
  rw [List.takeWhile_append_of_pos hrun, List.dropWhile_append_of_pos hrun]
  cases rest with
  | nil => exact ⟨List.append_nil _, rfl⟩
  | cons a rest =>
    have ha : ¬p a = true := by
      rw [hrest a rfl]
      exact Bool.false_ne_true
    rw [List.takeWhile_cons_of_neg ha, List.dropWhile_cons_of_neg ha, List.append_nil]
    exact ⟨rfl, rfl⟩

/-- The partner of an item of the second list. -/
theorem exists_getElem?_of_forall₂ {α β : Type} {R : α → β → Prop} {as : List α} {bs : List β}
    (h : List.Forall₂ R as bs) {i : Nat} {b : β} (hb : bs[i]? = some b) :
    ∃ a, as[i]? = some a ∧ R a b := by
  obtain ⟨hi, rfl⟩ := List.getElem?_eq_some_iff.1 hb
  have hia : i < as.length := by rwa [h.length_eq]
  exact ⟨as[i], List.getElem?_eq_getElem hia, h.get hia hi⟩

/-- An item keeps its place when others come after the list. -/
theorem getElem?_of_isPrefix {l l' : List α} (h : l <+: l') {i : Nat} {a : α}
    (ha : l[i]? = some a) : l'[i]? = some a := by
  obtain ⟨later, rfl⟩ := h
  rw [List.getElem?_append_left (List.getElem?_eq_some_iff.1 ha).1, ha]

/-- A step that may fail on some items gives one value for each item if it fails on none. -/
theorem Meets.mapM {E : ε → Prop} {f : α → Except ε β} (hf : ∀ a, Meets (fun _ => True) E (f a)) :
    ∀ as : List α, Meets (fun bs => bs.length = as.length) E (as.mapM f)
  | [] => rfl
  | a :: as => by
    rw [List.mapM_cons]
    refine (hf a).bind fun b _ => (Meets.mapM hf as).bind fun bs hbs => ?_
    exact congrArg (· + 1) hbs

/-- If steps succeed on all of some items, and then on items related to them with values related,
they succeed on all of those. -/
theorem mapM_related {f f' : α → Except ε β} {S : α → α → Prop} {R : β → β → Prop}
    {as as' : List α} (h : List.Forall₂ S as as')
    (hf : ∀ {a a' b}, S a a' → f a = .ok b → ∃ b', f' a' = .ok b' ∧ R b b') {bs : List β}
    (hbs : as.mapM f = .ok bs) : ∃ bs', as'.mapM f' = .ok bs' ∧ List.Forall₂ R bs bs' := by
  induction h generalizing bs with
  | nil =>
    cases hbs
    exact ⟨[], rfl, .nil⟩
  | cons hs _ ih =>
    rw [List.mapM_cons] at hbs ⊢
    obtain ⟨b, hb, hbs⟩ := bind_eq_ok_iff.1 hbs
    obtain ⟨rest, hrest, hbs⟩ := bind_eq_ok_iff.1 hbs
    cases hbs
    obtain ⟨b', hb', hr⟩ := hf hs hb
    obtain ⟨rest', hrest', hrs⟩ := ih hrest
    exact ⟨b' :: rest', by rw [hb', hrest']; rfl, .cons hr hrs⟩

end MapAlgebra
