import MapAlgebra.Proofs.Catalog.Settled
import MapAlgebra.Proofs.Pass.Interpreter

/-!
# Slots of declared shapes

A variable declares a shape and whether its values are scalars. Whatever cells a worker has visited
and in whatever order, the slots hold values of what their variables declare, and the windows it has
kept have their full size (`Context.Shaped`). So what it copies into a slot fits what it finds there
(**`Context.Shaped.fits`**), and a formula that has been compiled has a value with one component for
each band, unless an index of `bands` picks none (**`Compiled.Settled.safeOn`**).

Nothing is said of the values themselves, so none of this asks where the cells lie.
-/

namespace MapAlgebra

open MapAlgebra.Expr Plan Value

/-! ### What variables declare -/

/-- A value has the shape that a variable declares, and it is a scalar if the variable is. -/
structure Kind.Declares (k : Kind) (x : Value) : Prop where
  /-- The shape is the one declared. -/
  shape : x.shape = k.shape
  /-- The value is a scalar exactly if that is declared. -/
  isScalar : x.isScalar = k.isScalar

/-- A value of what is declared is one alike the placeholder. -/
theorem Kind.declares_iff_alike {k : Kind} {x : Value} : k.Declares x ↔ Alike k.placeholder x := by
  rw [Alike, shape_placeholder, isScalar_placeholder]
  exact ⟨fun h => ⟨h.shape.symm, h.isScalar.symm⟩, fun h => ⟨h.1.symm, h.2.symm⟩⟩

/-- A value that is not declared a scalar is a matrix. -/
theorem Kind.Declares.exists_matrix {k : Kind} {x : Value} (h : k.Declares x)
    (hk : k.isScalar = false) : ∃ m : Matrix, x = .matrix m ∧ m.cells.length = k.shape.size := by
  cases x with
  | scalar y => exact absurd (h.isScalar.trans hk) Bool.noConfusion
  | matrix m => exact ⟨m, rfl, h.shape ▸ Value.length_cells (.matrix m)⟩

/-- Every slot of a catalog holds a value of what its variable declares. -/
def Catalog.Declares (c : Catalog) (slots : Array Value) : Prop :=
  ∀ (slot : Nat) (v : Variable), c.slots[slot]? = some v →
    ∃ x, slots[slot]? = some x ∧ v.kind.Declares x

variable {c : Catalog} {plan : Plan} {row col : Nat}

theorem Catalog.declares_slotsAt (c : Catalog) (row col : Nat) :
    c.Declares (c.slotsAt row col) := by
  intro slot v hv
  refine ⟨v.kind.valueAt c.inputs row col, ?_, Kind.declares_iff_alike.2 (v.kind.valueAt_alike ..)⟩
  simp [c.getElem?_slotsAt, hv]

/-- A value of the template is a placeholder, or what the variable is worth at any cell. -/
theorem Plan.Renews.declares_template {slots : List Nat} (h : plan.Renews c slots) :
    c.Declares plan.template := by
  intro slot v hv
  rcases h.template slot with hkept | hfinal
  · refine ⟨v.kind.placeholder, ?_, Kind.declares_iff_alike.2 (Alike.refl _)⟩
    simp [hkept, c.getElem?_placeholders, hv]
  · rw [hfinal 0 0]
    exact c.declares_slotsAt 0 0 slot v hv

/-! ### Windows of full size -/

namespace Cache

/-- Every window kept has a sample for each of its cells. -/
def Sized (cache : Cache) : Prop :=
  ∀ key last, cache.entries.lookup key = some last → last.samples.length = key.window.size

theorem sized_empty : empty.Sized := by
  intro key last h
  cases h

theorem length_slideRight (r : Raster) (key : WindowKey) {samples : List Float}
    (h : samples.length = key.window.size) :
    (slideRight r key row col samples).length = key.window.size := by
  have hodd := key.window.odd_width
  have hrow : ∀ i < key.window.height,
      i * key.window.width + key.window.width ≤ samples.length := by
    intro i hi
    rw [h, Window.size, ← Nat.succ_mul, Nat.mul_comm]
    exact Nat.mul_le_mul_left _ hi
  have hlength : ∀ i ∈ List.range key.window.height,
      (((samples.drop (i * key.window.width + 1)).take (key.window.width - 1)) ++
        [r.sampleNear key.band row col (i - key.window.halfHeight) key.window.halfWidth]).length =
        key.window.width := by
    intro i hi
    have := hrow i (List.mem_range.1 hi)
    simp only [List.length_append, List.length_take, List.length_drop, List.length_singleton]
    omega
  simp only [slideRight, List.length_flatMap]
  rw [List.map_congr_left hlength]
  simp [Window.size, Nat.mul_comm]

/-- What is read has a sample for each cell of the window, and the cache stays sized. -/
theorem Sized.get {cache : Cache} (h : cache.Sized) (r : Raster) (key : WindowKey) (row col : Nat) :
    (cache.get r key row col).1.length = key.window.size ∧ (cache.get r key row col).2.Sized := by
  have hread : (read r key row col (cache.entries.lookup key)).length = key.window.size := by
    have hwindow : (r.readWindow key.band row col key.window).length = key.window.size := by
      rw [Raster.readWindow, List.length_map, Window.length_offsets]
    unfold read
    split
    · split
      · exact List.length_replicate
      · exact hwindow
    · next last hlast =>
      split
      · exact h key last hlast
      · split
        · exact length_slideRight r key (h key last hlast)
        · exact hwindow
  refine ⟨hread, fun key' last hlast => ?_⟩
  rw [lookup_get] at hlast
  split at hlast
  · next hkey =>
    subst hkey
    cases hlast
    exact hread
  · exact h key' last hlast

end Cache

/-! ### Workers -/

/-- What a feed finds when it renews a slot: the slot is there; the samples of a cell find a matrix
with one cell for each band of the raster, and those of a window one of as many cells. -/
def Feed.Fits (state : Array Value × Cache) (row col slot : Nat) : Feed → Prop
  | .pixel r bands => ∃ m : Matrix, state.1[slot]? = some (.matrix m) ∧
      m.cells.length = r.bands ∧ (r.readPixel row col bands).length = m.cells.length
  | .window r key => ∃ m : Matrix, state.1[slot]? = some (.matrix m) ∧
      (state.2.get r key row col).1.length = m.cells.length
  | .band .. | .physicalX _ | .physicalY _ | .indexX | .indexY => ∃ x, state.1[slot]? = some x

namespace Context

/-- What a feed gives is what is declared of the variable that it renews. -/
theorem declares_readFeed {inputs : List Source} {k : Kind} {f : Feed} (h : Feeds inputs k f)
    (cache : Cache) (row col : Nat) : k.Declares (readFeed cache row col f).1 := by
  cases h with
  | pixel =>
    refine ⟨?_, rfl⟩
    simp [readFeed, Value.row, Value.shape, Matrix.row, Matrix.shape, Raster.readPixel, Kind.shape]
  | band | window | physicalX | physicalY | indexX | indexY => exact ⟨rfl, rfl⟩

/-- What holds of the slots and the cache of a worker wherever it has been: the slots hold values of
what is declared, and the windows kept have their full size. -/
structure Shaped (c : Catalog) (state : Array Value × Cache) : Prop where
  /-- The slots hold values of what their variables declare. -/
  slots : c.Declares state.1
  /-- The windows kept have their full size. -/
  cache : state.2.Sized

variable {state : Array Value × Cache} {slot : Nat} {f : Feed} {v : Variable}

/-- Renewing one more slot. -/
theorem Shaped.renew (h : Shaped c state) (hslot : c.slots[slot]? = some v)
    (hrole : roleOf c.inputs v.kind = .ok (.renewed f)) (row col : Nat) :
    Shaped c (renew row col state (slot, f)) where
  slots := by
    intro slot' v' hv'
    obtain ⟨x, hx, hdeclares⟩ := h.slots slot' v' hv'
    by_cases heq : slot = slot'
    · subst heq
      obtain rfl : v = v' := Option.some.inj (hslot.symm.trans hv')
      have hlt : slot < state.1.size := (Array.getElem?_eq_some_iff.1 hx).1
      exact ⟨_, Array.getElem?_setIfInBounds_self_of_lt hlt,
        declares_readFeed (feeds_of_roleOf hrole) ..⟩
    · exact ⟨x, (Array.getElem?_setIfInBounds_ne heq).trans hx, hdeclares⟩
  cache := by
    cases f with
    | window r key => exact (h.cache.get r key row col).2
    | pixel | band | physicalX | physicalY | indexX | indexY => exact h.cache

/-- Renewing the slots of a list of feeds. -/
theorem Shaped.foldl_renew (row col : Nat) {feeds : List (Nat × Feed)}
    (hfeeds : ∀ slot f, (slot, f) ∈ feeds →
      ∃ v, c.slots[slot]? = some v ∧ roleOf c.inputs v.kind = .ok (.renewed f))
    (h : Shaped c state) : Shaped c (feeds.foldl (Context.renew row col) state) := by
  induction feeds generalizing state with
  | nil => exact h
  | cons feed feeds ih =>
    obtain ⟨v, hslot, hrole⟩ := hfeeds feed.1 feed.2 List.mem_cons_self
    exact ih (fun slot f hmem => hfeeds slot f (List.mem_cons_of_mem _ hmem))
      (h.renew hslot hrole row col)

/-- What a worker copies into a slot fits what it finds there. -/
theorem Shaped.fits (hc : c.WellFormed) (h : Shaped c state) (hslot : c.slots[slot]? = some v)
    (hrole : roleOf c.inputs v.kind = .ok (.renewed f)) (row col : Nat) :
    f.Fits state row col slot := by
  obtain ⟨x, hx, hdeclares⟩ := h.slots slot v hslot
  have hrange := hc.inRange hslot
  have hfeeds := feeds_of_roleOf hrole
  generalize v.kind = k at hdeclares hrange hfeeds
  cases hfeeds with
  | @pixel image bands s hs =>
    obtain ⟨s', hs', rfl⟩ := hrange
    obtain rfl : s = s' := Option.some.inj (hs.symm.trans hs')
    obtain ⟨m, rfl, hm⟩ := hdeclares.exists_matrix rfl
    have hcells : m.cells.length = s.raster.bands := hm.trans (Nat.one_mul _)
    exact ⟨m, hx, hcells, by simp [Raster.readPixel, hcells]⟩
  | @window key s hs =>
    obtain ⟨m, rfl, hm⟩ := hdeclares.exists_matrix rfl
    refine ⟨m, hx, ?_⟩
    rw [(h.cache.get s.raster key row col).1, hm, Window.size, Nat.mul_comm]
    rfl
  | band | physicalX | physicalY | indexX | indexY => exact ⟨x, hx⟩

/-- What a worker keeps, wherever it has been: it begins afresh and visits any cells of any regions
in any order. -/
inductive Visited (plan : Plan) : Context → Prop where
  /-- No cell has been visited. -/
  | fresh : Visited plan (.fresh plan)
  /-- One more cell has been visited. -/
  | visit {p : Progress} (region : Region) (cell : Nat × Nat) :
      Visited plan p.context → Visited plan (p.visit plan region cell).context

variable {es : List Compiled} {ctx : Context}

/-- A worker that moves to a cell. -/
theorem Shaped.moveTo (hplan : plan.Renews c (referenced c es))
    (h : Shaped c (ctx.slots, ctx.cache)) (row col : Nat) :
    Shaped c ((ctx.moveTo plan row col).slots, (ctx.moveTo plan row col).cache) :=
  h.foldl_renew row col hplan.feed

/-- **Workers**: wherever a worker has been, its slots hold values of what is declared. -/
theorem Visited.shaped (hplan : plan.Renews c (referenced c es)) (h : ctx.Visited plan) :
    Shaped c (ctx.slots, ctx.cache) := by
  induction h with
  | fresh => exact ⟨hplan.declares_template, Cache.sized_empty⟩
  | visit region cell _ ih => exact ih.moveTo hplan _ _

end Context

/-! ### Formulas -/

/-- On these slots a formula has a value, a scalar or a row, with one component for each band of its
output, or it fails on an index of `bands`, which it then calls. -/
def Compiled.SafeOn (e : Compiled) (slots : Array Value) : Prop :=
  (∃ x row, e.program.evaluate slots = .ok x ∧ x.asRow? = some row ∧
    row.length = e.output.bands) ∨
  (.bands ∈ e.program.tree.functions ∧ ∃ index length,
    e.program.evaluate slots = .error (.indexOutOfRange (.function .bands) index length))

namespace Compiled

variable {e : Compiled} {slots : Array Value}

/-- The slots that a settled formula reads have variables. -/
theorem Settled.exists_variable (h : e.Settled c) {slot : Nat} (hslot : slot ∈ e.program.slots) :
    ∃ v, c.slots[slot]? = some v := by
  obtain ⟨-, -, v, -, -, -, -, -, hprobe, -⟩ := h
  obtain ⟨a, ha⟩ := e.program.tree.bound_of_probe hprobe slot (List.mem_eraseDups.1 hslot)
  rw [c.getElem?_placeholders] at ha
  obtain ⟨x, hx, -⟩ := Option.map_eq_some_iff.1 ha
  exact ⟨x, hx⟩

/-- **Formulas**: a settled formula is safe on slots that hold values of what is declared, as these
are alike the placeholders it was probed with. -/
theorem Settled.safeOn (h : e.Settled c) (hslots : c.Declares slots) : e.SafeOn slots := by
  have halike : AlikeOn e.program.tree.references c.placeholders slots := by
    intro slot hslot
    obtain ⟨v, hv⟩ := h.exists_variable (List.mem_eraseDups.2 hslot)
    obtain ⟨x, hx, hdeclares⟩ := hslots slot v hv
    refine ⟨v.kind.placeholder, x, ?_, hx, Kind.declares_iff_alike.1 hdeclares⟩
    simp [c.getElem?_placeholders, hv]
  obtain ⟨-, -, v, row, -, -, -, -, hprobe, hrow, -, -, hbands⟩ := h
  have hmeets := e.program.tree.eval_of_probe halike hprobe
  unfold SafeOn Program.evaluate
  cases heval : e.program.tree.eval .selected slots with
  | ok x =>
    rw [heval] at hmeets
    have hx : Alike v x := hmeets
    rw [asRow?_eq] at hrow
    split at hrow
    · next hrows =>
      cases hrow
      refine Or.inl ⟨x, x.cells, rfl, ?_, ?_⟩
      · rw [asRow?_eq, if_pos (hx.1 ▸ hrows)]
      · rw [hbands, hx.length_cells]
    · cases hrow
  | error fault =>
    rw [heval] at hmeets
    obtain ⟨hcalls, index, length, rfl⟩ := hmeets
    exact Or.inr ⟨hcalls, index, length, rfl⟩

/-- A formula that does not call `bands` counts no error where it is safe. -/
theorem SafeOn.runtimeErrors_samples (h : e.SafeOn slots)
    (hcalls : .bands ∉ e.program.tree.functions) : (e.task.samples slots).2.runtimeErrors = 0 := by
  rcases h with ⟨x, row, heval, hrow, hbands⟩ | ⟨hmem, -⟩
  · have hcomponents : e.task.components? slots = some row := by
      simp [Task.components?, task, heval, hrow, hbands]
    have hcounts : (e.task.samples slots).2 =
        .sum ((row.map e.output.pixelType.clamp).map (·.2)) := by
      rw [Task.samples, hcomponents]
      rfl
    rw [hcounts, List.map_map]
    refine Diagnostics.runtimeErrors_sum fun d hd => ?_
    obtain ⟨y, -, rfl⟩ := List.mem_map.1 hd
    exact Diagnostics.runtimeErrors_clamp _ y
  · exact absurd hmem hcalls

end Compiled

end MapAlgebra
