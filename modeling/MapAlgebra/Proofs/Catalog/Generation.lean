import MapAlgebra.Proofs.Catalog.Interchange

/-!
# Generations

An operation on a catalog is granted or refused, and either way leaves a catalog
(`Catalog.Operation.outcome`). What a catalog knows only grows, and a new generation begins when a
registration or a declaration is granted and at no other time. A formula is therefore stale exactly
when one of these has been granted since it was compiled. Main statement:
**`Catalog.Reachable.staleness`**.
-/

namespace MapAlgebra.Catalog

variable {c c' : Catalog}

/-! ### Operations -/

/-- What may be asked of a catalog. -/
inductive Operation where
  /-- Register an input. -/
  | register (source : Source) (alias? : Option String)
  /-- Declare a number. -/
  | declareConstant (name : String) (x : Float)
  /-- Declare a matrix. -/
  | declareMatrix (name : String) (rows cols : Nat) (values : List Float)
  /-- Declare a matrix as a text. -/
  | declareMatrixText (name text : String)
  /-- Look up a name. -/
  | resolve (name : String)
  /-- Compile a formula. -/
  | compile (text : String) (t : PixelType)

/-- An operation that gives `x` leads to the catalog `next` says, or is refused and leaves the
catalog. -/
def settle {α : Type} (c : Catalog) (x : Except Failure α) (next : α → Catalog) :
    Except Failure Unit × Catalog :=
  match x with
  | .ok a => (.ok (), next a)
  | .error e => (.error e, c)

namespace Operation

/-- Whether an operation is granted, and the catalog that it leaves. -/
def outcome (op : Operation) (c : Catalog) : Except Failure Unit × Catalog :=
  match op with
  | .register source alias? => c.settle (c.register source alias?) (·.2)
  | .declareConstant name x => c.settle (c.declareConstant name x) id
  | .declareMatrix name rows cols values => c.settle (c.declareMatrix name rows cols values) id
  | .declareMatrixText name text => c.settle (c.declareMatrixText name text) id
  | .resolve name => c.settle (c.resolve name) (·.2)
  | .compile text t => ((c.compile text t).1.map fun _ => (), (c.compile text t).2)

/-- Whether an operation is a registration or a declaration. -/
def isLasting : Operation → Bool
  | .resolve _ | .compile .. => false
  | _ => true

/-- Whether an operation is a registration or a declaration that is granted. -/
def renews (op : Operation) (c : Catalog) : Bool := op.isLasting && (op.outcome c).1.isOk

end Operation

/-- The catalog that operations in order leave, each of which may be refused. -/
def after (c : Catalog) (ops : List Operation) : Catalog :=
  ops.foldl (fun c op => (op.outcome c).2) c

section Settle

variable {α : Type} {x : Except Failure α} {next : α → Catalog}

/-- What an operation leaves is the catalog before it, or what it leads to when it is granted. -/
theorem settle_snd_induction {P : Catalog → Prop} (hstay : P c)
    (hgo : ∀ a, x = .ok a → P (next a)) : P (c.settle x next).2 := by
  cases x with
  | error e => exact hstay
  | ok a => exact hgo a rfl

/-- An operation that begins a new generation if it is granted. -/
theorem generation_settle (h : ∀ a, x = .ok a → (next a).generation = c.generation + 1) :
    (c.settle x next).2.generation = c.generation + (c.settle x next).1.isOk.toNat := by
  cases x with
  | error e => rfl
  | ok a => exact h a rfl

/-- An operation that is refused leaves the catalog. -/
theorem eq_of_settle_eq_error {e : Failure} (h : c.settle x next = (.error e, c')) : c' = c := by
  cases x with
  | error e' => exact (congrArg Prod.snd h).symm
  | ok a => cases h

end Settle

/-- An operation leads to the catalog that it leaves. -/
theorem LeadsTo.outcome (c : Catalog) (op : Operation) : c.LeadsTo (op.outcome c).2 := by
  cases op with
  | register => exact settle_snd_induction .refl fun _ h => .register .refl h
  | declareConstant => exact settle_snd_induction .refl fun _ h => .declareConstant .refl h
  | declareMatrix => exact settle_snd_induction .refl fun _ h => .declareMatrix .refl h
  | declareMatrixText => exact settle_snd_induction .refl fun _ h => .declareMatrixText .refl h
  | resolve => exact settle_snd_induction .refl fun _ h => .resolve .refl h
  | compile text t => exact .compile text t .refl

/-! ### What begins a generation -/

@[simp] theorem generation_addEntries (root : String) (aliases : List String) :
    ∀ (entries : List (String × Kind)) (c : Catalog),
      (c.addEntries root aliases entries).generation = c.generation
  | [], _ => rfl
  | _ :: rest, _ => generation_addEntries root aliases rest _

theorem generation_of_register {source : Source} {alias? : Option String} {image : Nat}
    (h : c.register source alias? = .ok (image, c')) : c'.generation = c.generation + 1 := by
  obtain ⟨aliases, -, -, -, -, rfl⟩ := register_eq_ok h
  exact congrArg (· + 1) (generation_addEntries _ aliases _ c)

theorem generation_of_declareMatrix {name : String} {rows cols : Nat} {values : List Float}
    (h : c.declareMatrix name rows cols values = .ok c') : c'.generation = c.generation + 1 := by
  obtain ⟨-, -, -, -, rfl⟩ := declareMatrix_eq_ok_iff.1 h
  rfl

/-- A step: a registration or a declaration that is granted begins a new generation, and nothing
else does. -/
theorem WellFormed.generation_outcome (hc : c.WellFormed) (op : Operation) :
    (op.outcome c).2.generation = c.generation + (op.renews c).toNat := by
  cases op with
  | register => exact generation_settle fun _ h => generation_of_register h
  | declareConstant name x =>
    refine generation_settle fun c' h => ?_
    obtain ⟨-, rfl⟩ := declareConstant_eq_ok_iff.1 h
    rfl
  | declareMatrix => exact generation_settle fun _ h => generation_of_declareMatrix h
  | declareMatrixText name text =>
    refine generation_settle fun c' h => ?_
    obtain ⟨m, -, hdeclare⟩ := declareMatrixText_eq_ok_iff.1 h
    exact generation_of_declareMatrix hdeclare
  | resolve name =>
    exact settle_snd_induction (P := fun c' => c'.generation = c.generation) rfl fun _ h =>
      (hc.interchangeable_resolve h).generation
  | compile text t => exact (hc.interchangeable_compile text t).generation

/-- How many of some operations in order begin a new generation. -/
def renewals (c : Catalog) : List Operation → Nat
  | [] => 0
  | op :: ops => (op.renews c).toNat + renewals (op.outcome c).2 ops

/-- A run: the generation counts the registrations and declarations that have been granted. -/
theorem WellFormed.generation_after (hc : c.WellFormed) (ops : List Operation) :
    (c.after ops).generation = c.generation + c.renewals ops := by
  induction ops generalizing c with
  | nil => rfl
  | cons op ops ih =>
    have hnext := (hc.leadsTo (.outcome c op)).1
    calc (c.after (op :: ops)).generation
        = (op.outcome c).2.generation + (op.outcome c).2.renewals ops := ih hnext
      _ = c.generation + c.renewals (op :: ops) := by
        rw [hc.generation_outcome op, renewals, Nat.add_assoc]

/-- New generations have begun exactly if one of the operations began one where it stood. -/
theorem renewals_ne_zero_iff {ops : List Operation} : c.renewals ops ≠ 0 ↔
    ∃ done op rest, ops = done ++ op :: rest ∧ op.renews (c.after done) = true := by
  induction ops generalizing c with
  | nil => simp [renewals]
  | cons op ops ih =>
    have hsum : c.renewals (op :: ops) ≠ 0 ↔
        op.renews c = true ∨ (op.outcome c).2.renewals ops ≠ 0 := by
      cases h : op.renews c <;> simp [renewals, h]
    rw [hsum, ih]
    constructor
    · rintro (hop | ⟨done, next, rest, rfl, hnext⟩)
      · exact ⟨[], op, ops, rfl, hop⟩
      · exact ⟨op :: done, next, rest, rfl, hnext⟩
    · rintro ⟨done, next, rest, heq, hnext⟩
      cases done with
      | nil =>
        obtain ⟨rfl, -⟩ := List.cons.inj heq
        exact Or.inl hnext
      | cons first done =>
        obtain ⟨rfl, rfl⟩ := List.cons.inj heq
        exact Or.inr ⟨done, next, rest, rfl, hnext⟩

/-! ### Stale formulas -/

/-- A formula is of the generation of the catalog that its compilation leaves. -/
theorem generation_of_compile {text : String} {t : PixelType} {e : Compiled}
    (h : c.compile text t = (.ok e, c')) : e.generation = c'.generation := by
  unfold compile at h
  split at h
  · cases h
  · split at h
    · cases h
    · split at h
      · split at h
        · cases h
        · next r mid _ _ program _ =>
          unfold finish at h
          split at h
          · cases h
          · split at h
            · cases h
            · cases h
              rfl
      · cases h

/-- **Staleness**: whatever is asked of a reachable catalog, names lead to the slots that they led
to, variables stay in their slots, roots lead to the inputs that they led to, and inputs keep their
places; and the generation is one more if a registration or a declaration has been granted, and the
same otherwise. A formula that has been compiled is therefore stale, after any operations in order,
exactly if one of them was a registration or a declaration that was granted. -/
theorem Reachable.staleness (hc : c.Reachable) :
    (∀ op : Operation, c.Grows (op.outcome c).2 ∧
      (op.outcome c).2.generation = if op.renews c then c.generation + 1 else c.generation) ∧
      ∀ (text : String) (t : PixelType) (e : Compiled) (compiled : Catalog),
        c.compile text t = (.ok e, compiled) → ∀ ops : List Operation,
          e.isStale (compiled.after ops) = true ↔ ∃ done op rest, ops = done ++ op :: rest ∧
            op.renews (compiled.after done) = true := by
  refine ⟨fun op => ⟨(hc.wellFormed.leadsTo (.outcome c op)).2, ?_⟩,
    fun text t e compiled hcompile ops => ?_⟩
  · rw [hc.wellFormed.generation_outcome op]
    cases op.renews c <;> rfl
  · have hcompiled : compiled.WellFormed := by
      have := (hc.wellFormed.compile text t).1
      rwa [hcompile] at this
    rw [← renewals_ne_zero_iff]
    unfold Compiled.isStale
    rw [decide_eq_true_iff, generation_of_compile hcompile, hcompiled.generation_after]
    omega

/-- A formula stays current when a number has been refused and a window has been made, and it is
stale once a number has been declared. -/
theorem isStale_sample :
    let c := Sample.aliased.2
    let quiet : List Operation := [.declareConstant "im1" 7, .resolve "ab1N3x3"]
    c.Reachable ∧ ∃ e compiled, c.compile "ab1 + 1" .f64 = (.ok e, compiled) ∧
      ¬e.isStale (compiled.after quiet) = true ∧
      e.isStale (compiled.after (quiet ++ [.declareConstant "k" 7])) = true := by
  intro c quiet
  have hreachable : c.Reachable := Sample.aliased_reachable
  have hok : (c.compile "ab1 + 1" .f64).1.isOk = true := by decide +kernel
  have hcompile : c.compile "ab1 + 1" .f64 =
      (.ok (valueOf _ hok), (c.compile "ab1 + 1" .f64).2) := Prod.ext (eq_ok_valueOf hok) rfl
  have hstale := hreachable.staleness.2 _ _ _ _ hcompile
  refine ⟨hreachable, _, _, hcompile, fun h => ?_, (hstale _).2 ⟨quiet, _, [], rfl, ?_⟩⟩
  · have hnone : (c.compile "ab1 + 1" .f64).2.renewals quiet = 0 := by decide +kernel
    exact renewals_ne_zero_iff.2 ((hstale quiet).1 h) hnone
  · decide +kernel

end MapAlgebra.Catalog
