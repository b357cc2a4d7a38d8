import MapAlgebra.Proofs.Catalog.Name
import MapAlgebra.Proofs.Expr.Loose
import MapAlgebra.Proofs.Pass.Interpreter

/-!
# Catalogs whose values have cells

An input has a band, a declared matrix has a cell and a window has a centre, so every variable of a
reachable catalog holds values with cells (`Reachable.allOccupied`), and a formula that has been
compiled has a band. Main statement: **`values_wellShaped`**. Whatever a formula or a function makes
of values with cells has cells, and looks none up that is not there.
-/

namespace MapAlgebra

open MapAlgebra.Expr Loose Loose.Access

namespace Catalog

variable {c c' : Catalog}

/-! ### Variables -/

/-- All variables hold values with cells. -/
def AllOccupied (c : Catalog) : Prop := ∀ v ∈ c.slots, v.kind.placeholder.Occupied

/-- The value to try a formula on has the shape of the variable. -/
theorem occupied_placeholder {k : Kind} (hrows : 0 < k.shape.rows) (hcols : 0 < k.shape.cols) :
    k.placeholder.Occupied :=
  ⟨k.shape_placeholder ▸ hrows, k.shape_placeholder ▸ hcols⟩

theorem AllOccupied.push (h : c.AllOccupied) (name : String) {kind : Kind}
    (hkind : kind.placeholder.Occupied) : (c.push name kind).2.AllOccupied := by
  intro v hv
  rcases Array.mem_push.1 hv with hold | rfl
  · exact h v hold
  · exact hkind

theorem AllOccupied.addEntries (h : c.AllOccupied) (root : String) (aliases : List String)
    {entries : List (String × Kind)} (hentries : ∀ e ∈ entries, e.2.placeholder.Occupied) :
    (c.addEntries root aliases entries).AllOccupied := by
  induction entries generalizing c with
  | nil => exact h
  | cons e entries ih =>
    obtain ⟨hfirst, hrest⟩ := List.forall_mem_cons.1 hentries
    refine ih ?_ hrest
    exact h.push (root ++ e.1) hfirst

/-- The variables of an input that has a band hold values with cells. -/
theorem occupied_of_mem_endings {image bands : Nat} (hbands : 0 < bands) {e : String × Kind}
    (h : e ∈ endings image bands) : e.2.placeholder.Occupied := by
  rcases mem_endings h with rfl | rfl | rfl | ⟨band, -, rfl⟩ | ⟨band, -, s, rfl⟩
  · exact occupied_placeholder Nat.one_pos hbands
  · exact Value.occupied_scalar _
  · exact Value.occupied_scalar _
  · exact Value.occupied_scalar _
  · exact Value.occupied_scalar _

theorem AllOccupied.register (h : c.AllOccupied) {source : Source} {alias? : Option String}
    {image : Nat} (hregister : c.register source alias? = .ok (image, c')) : c'.AllOccupied := by
  obtain ⟨aliases, hinput, -, -, -, rfl⟩ := register_eq_ok hregister
  have hbands : 0 < source.raster.bands := by
    unfold checkInput at hinput
    split at hinput
    · cases hinput
    · next hbands => exact Nat.pos_of_ne_zero hbands
  exact h.addEntries _ aliases fun e he => occupied_of_mem_endings hbands he

theorem AllOccupied.declareMatrix (h : c.AllOccupied) {name : String} {rows cols : Nat}
    {values : List Float} (hdeclare : c.declareMatrix name rows cols values = .ok c') :
    c'.AllOccupied := by
  obtain ⟨-, hrows, hcols, -, rfl⟩ := declareMatrix_eq_ok_iff.1 hdeclare
  exact h.push name (occupied_placeholder (Nat.pos_of_ne_zero hrows) (Nat.pos_of_ne_zero hcols))

/-- The sides of a window are odd. -/
theorem AllOccupied.resolve (h : c.AllOccupied) {name : String} {slot : Nat}
    (hresolve : c.resolve name = .ok (slot, c')) : c'.AllOccupied := by
  rcases resolve_eq_ok hresolve with ⟨-, rfl⟩ | ⟨-, n, image, band, w, -, -, -, -, hadd⟩
  · exact h
  · obtain rfl : (c.addWindow name ⟨image, band, w⟩).2 = c' := congrArg Prod.snd hadd
    unfold addWindow
    cases c.windows.lookup ⟨image, band, w⟩ with
    | some slot => exact h
    | none =>
      have hheight : 0 < w.height := Nat.pos_of_ne_zero fun h0 => by
        have := w.odd_height
        omega
      have hwidth : 0 < w.width := Nat.pos_of_ne_zero fun h0 => by
        have := w.odd_width
        omega
      exact h.push (windowName ⟨image, band, w⟩) (occupied_placeholder hheight hwidth)

theorem AllOccupied.resolveAll (h : c.AllOccupied) (names : List String) :
    (c.resolveAll names).2.AllOccupied := by
  induction names generalizing c with
  | nil => exact h
  | cons name rest ih =>
    unfold Catalog.resolveAll
    split
    · next hresolve => exact ih (h.resolve hresolve)
    · exact ih h
    · exact h

/-- One compilation leaves all variables with values that have cells. -/
theorem AllOccupied.compile (h : c.AllOccupied) (text : String) (t : PixelType) :
    (c.compile text t).2.AllOccupied := by
  rcases compile_snd c text t with hsame | ⟨names, hresolved⟩
  · rwa [hsame]
  · rw [hresolved]
    exact h.resolveAll names

/-- **Variables** of a reachable catalog hold values with cells. -/
theorem Reachable.allOccupied (hc : c.Reachable) : c.AllOccupied := by
  induction hc with
  | refl =>
    intro v hv
    have hkinds : ∀ v ∈ initial.slots, v.kind = .indexX ∨ v.kind = .indexY := by
      unfold initial Catalog.push
      simp
    rcases hkinds v hv with hkind | hkind <;> rw [hkind] <;> exact Value.occupied_scalar _
  | register _ hregister ih => exact ih.register hregister
  | declareConstant _ hdeclare ih =>
    obtain ⟨-, rfl⟩ := declareConstant_eq_ok_iff.1 hdeclare
    exact ih.push _ (Value.occupied_scalar _)
  | declareMatrix _ hdeclare ih => exact ih.declareMatrix hdeclare
  | declareMatrixText _ hdeclare ih =>
    obtain ⟨m, -, hdeclare⟩ := declareMatrixText_eq_ok_iff.1 hdeclare
    exact ih.declareMatrix hdeclare
  | resolve _ hresolve ih => exact ih.resolve hresolve
  | compile text t _ ih => exact ih.compile text t

/-! ### Compiled formulas -/

/-- The program of a formula that has been compiled has a row and a column in every matrix. -/
theorem solid_of_compile {text : String} {t : PixelType} {e : Compiled}
    (h : c.compile text t = (.ok e, c')) : e.program.tree.Solid := by
  unfold Catalog.compile at h
  split at h
  · cases h
  · next f hparse =>
    split at h
    · cases h
    · split at h
      · split at h
        · cases h
        · next program hbind =>
          have hsolid := Formula.solid_of_bind (Formula.solid_of_parse hparse) hbind
          unfold finish at h
          split at h
          · cases h
          · split at h <;> cases h
            exact hsolid
      · cases h

/-- A formula that has been compiled has a band. -/
theorem Reachable.bands_pos (hc : c.Reachable) {text : String} {t : PixelType} {e : Compiled}
    (h : (c.compile text t).1 = .ok e) : 1 ≤ e.output.bands := by
  have hcompile : c.compile text t = (.ok e, (c.compile text t).2) := Prod.ext h rfl
  obtain ⟨v, row, hprobe, hrow, houtput⟩ := compile_eq_ok hcompile
  have hplaceholders : ∀ v ∈ (c.compile text t).2.placeholders, v.Occupied := by
    intro v hv
    obtain ⟨w, hw, rfl⟩ := Array.mem_map.1 hv
    exact hc.allOccupied.compile text t w hw
  have hv := Tree.occupied_of_eval hplaceholders _ (solid_of_compile hcompile) hprobe
  rw [Value.asRow?_eq] at hrow
  split at hrow <;> cases hrow
  rw [houtput]
  exact List.length_pos_of_ne_nil hv.cells_ne_nil

end Catalog

/-! ### Values -/

/-- Cells are looked up safely: no index leaves its list, the outcome is a given one, and a value
has a row and a column and as many cells as its shape says. -/
structure Loose.Safe (x : Access Content) (y : Except EvalError Value) : Prop where
  /-- Looking up by index stands for the computation. -/
  follows : Follows Value.loose x y
  /-- A value is well shaped. -/
  wellShaped : ∀ u, x = pure u → u.WellShaped

theorem Loose.Access.Follows.safe {x : Access Content} {y : Except EvalError Value}
    (h : Follows Value.loose x y) (hy : ∀ v, y = .ok v → v.Occupied) : Safe x y where
  follows := h
  wellShaped u hu := by
    obtain ⟨v, hv, rfl⟩ := h.value hu
    exact (hy v hv).wellShaped

/-- **Well-formed values**: on slots that hold values with cells, every part of a formula that has
been read and bound has values with cells only, whether it is evaluated or probed, and so has a
function on such arguments. No cell is looked up that is not there: evaluation by index is safe, as
long as `bands` picks from rows of fewer than `2 ^ 53` components. A formula that has been compiled
has a band. -/
theorem values_wellShaped :
    (∀ (ε : Type) (ρ : String → Except ε Nat) (text : String) (f : Formula) (p : Program)
      (slots : Array Value), Formula.parse text = .ok f → f.bind ρ = .ok p →
      (∀ v ∈ slots, v.Occupied) → ∀ t ∈ p.tree.subterms, ∀ branching,
        (∀ v, t.eval branching slots = .ok v → v.Occupied) ∧
        (Tree.ShortRows branching slots t.subterms →
          Safe (t.evalLoose branching (slots.map Value.loose)) (t.eval branching slots))) ∧
    (∀ (f : Function) (args : List Value), (∀ a ∈ args, a.Occupied) →
      (∀ v, f.apply args = .ok v → v.Occupied) ∧
      ((∀ a b, f = .bands → args = [a, b] → a.cells.length < 2 ^ 53) →
        Safe (apply f (args.map Value.loose)) (f.apply args))) ∧
    ∀ (c : Catalog) (text : String) (t : PixelType) (e : Compiled), c.Reachable →
      (c.compile text t).1 = .ok e → 1 ≤ e.output.bands := by
  refine ⟨?_, ?_, fun c text t e hc => hc.bands_pos⟩
  · intro ε ρ text f p slots hparse hbind hslots t ht branching
    have hsolid := Formula.solid_of_bind (Formula.solid_of_parse hparse) hbind
    have hvalues : ∀ v, t.eval branching slots = .ok v → v.Occupied := fun _ =>
      Tree.occupied_of_eval hslots t (hsolid.of_mem_subterms _ t ht)
    exact ⟨hvalues, fun hshort => (Tree.evalLoose_follows t hshort).safe hvalues⟩
  · intro f args hargs
    have hvalues : ∀ v, f.apply args = .ok v → v.Occupied := fun _ =>
      Function.occupied_of_apply hargs
    exact ⟨hvalues, fun hbands => (apply_follows hbands).safe hvalues⟩

/-- A row with an index that is no number, beside one in range; a median; and a row of one sample
and one number. -/
theorem values_wellShaped_missingIndex :
    let slots := #[Value.row [5.0, 7.0], .scalar Number.nan]
    let ρ : String → Except String Nat := fun name => .ok (if name = "a" then 0 else 1)
    (∃ f p, Formula.parse "bands(a, \x7b2, b\x7d)" = .ok f ∧ f.bind ρ = .ok p ∧
      p.tree.evalLoose .selected (slots.map Value.loose) ≠ outside ∧
      p.tree.evalLoose .both (slots.map Value.loose) ≠ outside) ∧
    apply (.reduce .median) [(Value.row [Number.nan, 3.0]).loose] ≠ outside ∧
    ∃ e, (Catalog.initial.compile "\x7bidxX, 1\x7d" .f64).1 = .ok e ∧ 1 ≤ e.output.bands := by
  intro slots ρ
  obtain ⟨hformulas, hfunctions, hcompiled⟩ := values_wellShaped
  have hparse : (Formula.parse "bands(a, \x7b2, b\x7d)").isOk = true := by decide +kernel
  have hbind : ((valueOf _ hparse).bind ρ).isOk = true := by decide +kernel +revert
  have hshort : Tree.ShortRows .selected slots (valueOf _ hbind).tree.subterms ∧
      Tree.ShortRows .both slots (valueOf _ hbind).tree.subterms := by decide +kernel +revert
  have hrow : (Value.row [5.0, 7.0]).Occupied := Value.occupied_row (List.cons_ne_nil _ _)
  have hslots : ∀ v ∈ slots, v.Occupied := by
    intro v hv
    rcases List.mem_cons.1 (Array.mem_def.1 hv) with rfl | hv
    · exact hrow
    · obtain rfl := List.mem_singleton.1 hv
      exact Value.occupied_scalar _
  have hvalues := hformulas _ ρ _ _ _ _ (eq_ok_valueOf hparse) (eq_ok_valueOf hbind) hslots _
    (Tree.mem_subterms _)
  have hargs : ∀ a ∈ [Value.row [Number.nan, 3.0]], a.Occupied :=
    List.forall_mem_singleton.2 (Value.occupied_row (List.cons_ne_nil _ _))
  have hok : (Catalog.initial.compile "\x7bidxX, 1\x7d" .f64).1.isOk = true := by decide +kernel
  refine ⟨⟨_, _, eq_ok_valueOf hparse, eq_ok_valueOf hbind, ?_, ?_⟩, ?_, _, eq_ok_valueOf hok, ?_⟩
  · exact ((hvalues .selected).2 hshort.1).follows.inside
  · exact ((hvalues .both).2 hshort.2).follows.inside
  · exact ((hfunctions (.reduce .median) _ hargs).2 nofun).follows.inside
  · exact hcompiled _ _ _ _ .refl (eq_ok_valueOf hok)

end MapAlgebra
