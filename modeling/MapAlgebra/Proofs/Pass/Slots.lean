import MapAlgebra.Pass.Engine
import MapAlgebra.Proofs.Expr.Locality
import MapAlgebra.Proofs.Pass.Window
import MapAlgebra.Proofs.Result

/-!
# Slots at a cell

What every variable of a catalog is worth at a cell can be worked out from scratch: samples and
windows are looked up in the inputs, coordinates are calculated, statistics are taken over whole
bands (`Catalog.slotsAt`). A worker does not do that. It starts from the template of its plan,
renews only the slots that some formula reads and that change from cell to cell, and reads windows
through its cache.

Main statement: **`Context.agreeOn_moveTo`** says that the slots the formulas read hold, after the
move to a cell, what they are worth there, whichever cells the worker has visited before. The
invariant of the worker is `Context.Sound`, that of a plan is `Plan.Renews`.
-/

namespace MapAlgebra

/-! ### From scratch -/

/-- The window of a band around a cell, as a matrix. -/
def Raster.windowMatrix (r : Raster) (band row col : Nat) (w : Window) : Matrix :=
  ⟨w.height, w.width, r.windowAt band row col w, Raster.length_windowAt⟩

/-- What a variable is worth at a cell, the inputs being those listed. A variable of an input that
is not there is worth its placeholder. -/
def Kind.valueAt (inputs : List Source) (row col : Nat) (k : Kind) : Value :=
  let ofInput (image : Nat) (f : Source → Value) : Value :=
    (inputs[image]?.map f).getD k.placeholder
  match k with
  | .pixel image bands => ofInput image fun s =>
      .row ((List.range bands).map fun band => s.raster.sample band row col)
  | .band image b => ofInput image fun s => .scalar (s.raster.sample b row col)
  | .window key => ofInput key.image fun s =>
      .matrix (s.raster.windowMatrix key.band row col key.window)
  | .physicalX image => ofInput image fun s => .scalar (s.raster.transform.center col row).1
  | .physicalY image => ofInput image fun s => .scalar (s.raster.transform.center col row).2
  | .indexX => .scalar (Float.ofNat col)
  | .indexY => .scalar (Float.ofNat row)
  | .statistic image b which => ofInput image fun s =>
      match s.statistics b with
      | .ok statistics => .scalar (which.value statistics)
      | .error _ => k.placeholder
  | .constant x => .scalar x
  | .matrix m => .matrix m

/-- What all variables of a catalog are worth at a cell, by slot. -/
def Catalog.slotsAt (c : Catalog) (row col : Nat) : Array Value :=
  c.slots.map fun v => v.kind.valueAt c.inputs row col

theorem Catalog.getElem?_slotsAt (c : Catalog) (row col slot : Nat) :
    (c.slotsAt row col)[slot]? = c.slots[slot]?.map fun v => v.kind.valueAt c.inputs row col := by
  rw [slotsAt, Array.getElem?_map]

theorem Catalog.getElem?_placeholders (c : Catalog) (slot : Nat) :
    c.placeholders[slot]? = c.slots[slot]?.map (·.kind.placeholder) := by
  rw [placeholders, Array.getElem?_map]

/-! ### Feeds and roles -/

/-- What a feed is worth at a cell, windows read afresh. -/
def Feed.valueAt (row col : Nat) : Feed → Value
  | .pixel r bands => .row ((List.range bands).map fun band => r.sample band row col)
  | .band r b => .scalar (r.sample b row col)
  | .window r key => .matrix (r.windowMatrix key.band row col key.window)
  | .physicalX t => .scalar (t.center col row).1
  | .physicalY t => .scalar (t.center col row).2
  | .indexX => .scalar (Float.ofNat col)
  | .indexY => .scalar (Float.ofNat row)

/-- A cell lies in the grid of every input. -/
def InGrids (inputs : List Source) (row col : Nat) : Prop :=
  ∀ s ∈ inputs, row < s.raster.rows ∧ col < s.raster.cols

namespace Plan

/-- A slot of a fixed role is always worth its placeholder, one of a settled role the value settled,
and one of a role that is renewed what its feed is worth. -/
def Role.Matches (inputs : List Source) (k : Kind) : Role → Prop
  | .fixed => ∀ row col, k.valueAt inputs row col = k.placeholder
  | .settled v => ∀ row col, k.valueAt inputs row col = v
  | .renewed f => ∀ row col, k.valueAt inputs row col = f.valueAt row col

/-- The role of a variable says what it is worth. -/
theorem matches_of_roleOf {inputs : List Source} {k : Kind} {role : Role}
    (h : roleOf inputs k = .ok role) : role.Matches inputs k := by
  cases k with
  | pixel image bands | band image b | window key | physicalX image | physicalY image =>
    simp only [roleOf] at h
    split at h <;> next hs =>
      cases h
      intro row col
      simp [Kind.valueAt, hs, Feed.valueAt]
  | indexX => cases h; intro row col; rfl
  | indexY => cases h; intro row col; rfl
  | statistic image band which =>
    simp only [roleOf] at h
    split at h
    · next s hs =>
      split at h
      · next statistics hstat =>
        cases h
        intro row col
        simp [Kind.valueAt, hs, hstat]
      · cases h
    · next hs =>
      cases h
      intro row col
      simp [Kind.valueAt, hs]
  | constant x => cases h; intro row col; rfl
  | matrix m => cases h; intro row col; rfl

/-- The feeds that renew the variables of each kind, the inputs being those listed. -/
inductive Feeds (inputs : List Source) : Kind → Feed → Prop where
  /-- The samples of an input at the cell. -/
  | pixel {image bands : Nat} {s : Source} : inputs[image]? = some s →
      Feeds inputs (.pixel image bands) (.pixel s.raster bands)
  /-- The sample of a band at the cell. -/
  | band {image b : Nat} {s : Source} : inputs[image]? = some s →
      Feeds inputs (.band image b) (.band s.raster b)
  /-- The samples around the cell. -/
  | window {key : WindowKey} {s : Source} : inputs[key.image]? = some s →
      Feeds inputs (.window key) (.window s.raster key)
  /-- The first coordinate of the cell. -/
  | physicalX {image : Nat} {s : Source} : inputs[image]? = some s →
      Feeds inputs (.physicalX image) (.physicalX s.raster.transform)
  /-- The second coordinate of the cell. -/
  | physicalY {image : Nat} {s : Source} : inputs[image]? = some s →
      Feeds inputs (.physicalY image) (.physicalY s.raster.transform)
  /-- The column of the cell. -/
  | indexX : Feeds inputs .indexX .indexX
  /-- The row of the cell. -/
  | indexY : Feeds inputs .indexY .indexY

/-- A variable that is renewed is renewed from a feed of its kind. -/
theorem feeds_of_roleOf {inputs : List Source} {k : Kind} {f : Feed}
    (h : roleOf inputs k = .ok (.renewed f)) : Feeds inputs k f := by
  cases k with
  | pixel | band | window | physicalX | physicalY =>
    simp only [roleOf] at h
    split at h <;> cases h
    next hs => constructor; exact hs
  | statistic =>
    simp only [roleOf] at h
    split at h
    · split at h <;> cases h
    · cases h
  | indexX => cases h; exact .indexX
  | indexY => cases h; exact .indexY
  | constant | matrix => cases h

/-! ### Plans -/

/-- The value of a slot in a list of slot values is what the slot is worth at every cell. -/
def Final (c : Catalog) (values : Array Value) (slot : Nat) : Prop :=
  ∀ row col, values[slot]? = (c.slotsAt row col)[slot]?

/-- What holds of a plan of a catalog after some slots have been added to it. -/
structure Renews (c : Catalog) (slots : List Nat) (plan : Plan) : Prop where
  /-- The template has a value for every slot. -/
  size_template : plan.template.size = c.slots.size
  /-- A slot is renewed from the feed of its variable. -/
  feed : ∀ slot f, (slot, f) ∈ plan.feeds →
    ∃ v, c.slots[slot]? = some v ∧ roleOf c.inputs v.kind = .ok (.renewed f)
  /-- A value of the template is still the placeholder, or it is final. -/
  template : ∀ slot, plan.template[slot]? = c.placeholders[slot]? ∨ Final c plan.template slot
  /-- A slot that has been added is renewed, or its value in the template is final. -/
  settled : ∀ slot ∈ slots, slot ∈ plan.feeds.map (·.1) ∨ Final c plan.template slot

variable {c : Catalog} {slots : List Nat} {plan plan' : Plan}

theorem renews_nil (tasks : List Task) : Renews c [] ⟨tasks, c.placeholders, []⟩ where
  size_template := by simp [Catalog.placeholders]
  feed slot f h := by cases h
  template slot := Or.inl rfl
  settled slot h := by cases h

/-- A slot that the catalog does not have has no value anywhere. -/
theorem Renews.final_of_none (h : plan.Renews c slots) {slot : Nat}
    (hslot : c.slots[slot]? = none) : Final c plan.template slot := by
  intro row col
  rw [c.getElem?_slotsAt, hslot, Option.map_none, Array.getElem?_eq_none_iff, h.size_template]
  exact Array.getElem?_eq_none_iff.1 hslot

/-- A slot of a fixed role keeps its placeholder. -/
theorem Renews.final_of_fixed (h : plan.Renews c slots) {slot : Nat} {v : Variable}
    (hslot : c.slots[slot]? = some v) (hrole : Role.fixed.Matches c.inputs v.kind) :
    Final c plan.template slot := by
  rcases h.template slot with hkept | hfinal
  · intro row col
    rw [hkept, c.getElem?_placeholders, c.getElem?_slotsAt, hslot, Option.map_some, Option.map_some,
      hrole row col]
  · exact hfinal

/-- Writing a final value makes one slot final and leaves the others. -/
theorem Renews.settle (h : plan.Renews c slots) {slot : Nat} {v : Variable} {x : Value}
    (hslot : c.slots[slot]? = some v) (hx : (Role.settled x).Matches c.inputs v.kind) :
    Renews c (slots ++ [slot]) { plan with template := plan.template.setIfInBounds slot x } := by
  have hlt : slot < plan.template.size := by
    rw [h.size_template]
    exact (Array.getElem?_eq_some_iff.1 hslot).1
  have hself : Final c (plan.template.setIfInBounds slot x) slot := by
    intro row col
    rw [Array.getElem?_setIfInBounds, if_pos rfl, if_pos hlt, c.getElem?_slotsAt, hslot,
      Option.map_some, hx row col]
  have hother : ∀ slot', slot ≠ slot' →
      (plan.template.setIfInBounds slot x)[slot']? = plan.template[slot']? := by
    intro slot' hne
    rw [Array.getElem?_setIfInBounds, if_neg hne]
  have hkeep : ∀ slot', Final c plan.template slot' →
      Final c (plan.template.setIfInBounds slot x) slot' := by
    intro slot' hfinal
    by_cases heq : slot = slot'
    · exact heq ▸ hself
    · intro row col
      rw [hother slot' heq, hfinal row col]
  refine ⟨by rw [Array.size_setIfInBounds, h.size_template], h.feed, fun slot' => ?_,
    List.forall_mem_append.2 ⟨fun slot' hmem => ?_, ?_⟩⟩
  · by_cases heq : slot = slot'
    · exact Or.inr (heq ▸ hself)
    · rcases h.template slot' with hkept | hfinal
      · exact Or.inl (by rw [hother slot' heq, hkept])
      · exact Or.inr (hkeep slot' hfinal)
  · exact (h.settled slot' hmem).imp_right (hkeep slot')
  · exact List.forall_mem_singleton.2 (Or.inr hself)

/-- Adding a slot keeps a plan right and makes it right about the slot. -/
theorem Renews.addSlot (h : plan.Renews c slots) {slot : Nat}
    (hadd : Plan.addSlot c plan slot = .ok plan') : plan'.Renews c (slots ++ [slot]) := by
  -- a plan that stays as it is only has to be right about the slot already
  have keep : Final c plan.template slot → plan.Renews c (slots ++ [slot]) := by
    intro hfinal
    have hslot : ∀ slot' ∈ [slot], slot' ∈ plan.feeds.map (·.1) ∨ Final c plan.template slot' :=
      List.forall_mem_singleton.2 (Or.inr hfinal)
    exact ⟨h.size_template, h.feed, h.template, List.forall_mem_append.2 ⟨h.settled, hslot⟩⟩
  unfold Plan.addSlot at hadd
  split at hadd
  · next hnone =>
    cases hadd
    exact keep (h.final_of_none hnone)
  · next v hslot =>
    split at hadd
    · cases hadd
    · next hrole =>
      cases hadd
      exact keep (h.final_of_fixed hslot (matches_of_roleOf hrole))
    · next x hrole =>
      cases hadd
      exact h.settle hslot (matches_of_roleOf hrole)
    · next f hrole =>
      cases hadd
      refine ⟨h.size_template, fun slot' f' hmem => ?_, h.template, fun slot' hmem => ?_⟩
      · rcases List.mem_append.1 hmem with hmem | hmem
        · exact h.feed slot' f' hmem
        · cases List.mem_singleton.1 hmem
          exact ⟨v, hslot, hrole⟩
      · rw [List.map_append, List.mem_append]
        rcases List.mem_append.1 hmem with hmem | hmem
        · exact (h.settled slot' hmem).imp_left Or.inl
        · exact Or.inl (Or.inr (by simpa using hmem))

theorem tasks_of_addSlot {slot : Nat} (hadd : Plan.addSlot c plan slot = .ok plan') :
    plan'.tasks = plan.tasks := by
  unfold Plan.addSlot at hadd
  split at hadd
  · cases hadd; rfl
  · split at hadd <;> cases hadd <;> rfl

theorem Renews.foldlM_addSlot : ∀ {more slots : List Nat} {plan : Plan}, plan.Renews c slots →
    more.foldlM (Plan.addSlot c) plan = .ok plan' →
    plan'.Renews c (slots ++ more) ∧ plan'.tasks = plan.tasks
  | [], slots, plan, h, hfold => by
    cases hfold
    exact ⟨by rwa [List.append_nil], rfl⟩
  | slot :: more, slots, plan, h, hfold => by
    rw [List.foldlM_cons] at hfold
    obtain ⟨mid, hadd, hfold⟩ := bind_eq_ok_iff.1 hfold
    obtain ⟨hrenews, htasks⟩ := (h.addSlot hadd).foldlM_addSlot hfold
    rw [List.append_assoc] at hrenews
    exact ⟨hrenews, htasks.trans (tasks_of_addSlot hadd)⟩

/-- **Plans**: the plan of a catalog and some formulas is right about all slots the formulas
read. -/
theorem renews_of_ofCompiled {es : List Compiled} (h : ofCompiled c es = .ok plan) :
    plan.Renews c (referenced c es) ∧ plan.tasks = es.map fun e => ⟨e.program, e.output⟩ := by
  exact (renews_nil _).foldlM_addSlot h

/-- A slot that a formula of the pass reads is among those the plan is right about, if the catalog
has it. -/
theorem mem_referenced {es : List Compiled} {e : Compiled} {slot : Nat} (he : e ∈ es)
    (hslot : slot ∈ e.program.tree.references) (hlt : slot < c.slots.size) :
    slot ∈ referenced c es := by
  refine List.mem_filter.2 ⟨List.mem_range.2 hlt, List.any_eq_true.2 ⟨e, he, ?_⟩⟩
  exact List.contains_iff_mem.2 hslot

end Plan

/-! ### Workers -/

/-- A matrix filled with all its cells is the matrix. -/
theorem Matrix.filled_cells (m : Matrix) (rest : Float) :
    filled m.rows m.cols m.cells rest = m := by
  cases m with
  | mk rows cols cells h =>
    unfold filled
    congr 1
    rw [← h, List.take_left]

namespace Context

open Plan

variable {c : Catalog} {plan : Plan} {ctx : Context} {row col : Nat}

/-- Reading a feed at a cell gives what it is worth there, and the cache stays faithful. -/
theorem readFeed_eq {cache : Cache} {inputs : List Source} {k : Kind} {f : Feed}
    (hcache : cache.Faithful inputs) (hrole : roleOf inputs k = .ok (.renewed f))
    (hcell : InGrids inputs row col) :
    (readFeed cache row col f).1 = f.valueAt row col ∧
      (readFeed cache row col f).2.Faithful inputs := by
  cases f with
  | window r key =>
    obtain ⟨s, hs, rfl⟩ : ∃ s, inputs[key.image]? = some s ∧ r = s.raster := by
      cases feeds_of_roleOf hrole with
      | window hs => exact ⟨_, hs, rfl⟩
    obtain ⟨hrow, hcol⟩ := hcell s (List.mem_of_getElem? hs)
    obtain ⟨hsamples, hkept⟩ := Cache.get_eq_windowAt hcache hs hrow hcol
    refine ⟨?_, hkept⟩
    simp only [readFeed, hsamples]
    exact congrArg Value.matrix ((s.raster.windowMatrix key.band row col key.window).filled_cells _)
  | pixel r bands => exact ⟨rfl, hcache⟩
  | band r b => exact ⟨rfl, hcache⟩
  | physicalX t => exact ⟨rfl, hcache⟩
  | physicalY t => exact ⟨rfl, hcache⟩
  | indexX => exact ⟨rfl, hcache⟩
  | indexY => exact ⟨rfl, hcache⟩

/-- What holds of slot values and a cache when the slots in `done` have been renewed at a cell and
the others are as in `before`. -/
structure Renewed (c : Catalog) (row col : Nat) (before : Array Value) (done : List Nat)
    (state : Array Value × Cache) : Prop where
  /-- Every slot has a value. -/
  size_slots : state.1.size = c.slots.size
  /-- A slot that has been renewed holds what it is worth at the cell. -/
  renewed : ∀ slot ∈ done, state.1[slot]? = (c.slotsAt row col)[slot]?
  /-- No other slot has been touched. -/
  kept : ∀ slot ∉ done, state.1[slot]? = before[slot]?
  /-- The cache is faithful. -/
  cache : state.2.Faithful c.inputs

/-- Renewing one more slot. -/
theorem Renewed.renew {before : Array Value} {done : List Nat} {state : Array Value × Cache}
    (h : Renewed c row col before done state) {slot : Nat} {f : Feed} {v : Variable}
    (hslot : c.slots[slot]? = some v) (hrole : roleOf c.inputs v.kind = .ok (.renewed f))
    (hcell : InGrids c.inputs row col) :
    Renewed c row col before (done ++ [slot]) (renew row col state (slot, f)) := by
  obtain ⟨hvalue, hcache⟩ := readFeed_eq h.cache hrole hcell
  have hlt : slot < state.1.size := by
    rw [h.size_slots]
    exact (Array.getElem?_eq_some_iff.1 hslot).1
  have hself : (Context.renew row col state (slot, f)).1[slot]? = (c.slotsAt row col)[slot]? := by
    rw [c.getElem?_slotsAt, hslot, Option.map_some, matches_of_roleOf hrole row col, ← hvalue]
    exact Array.getElem?_setIfInBounds_self_of_lt hlt
  have hother : ∀ slot', slot ≠ slot' →
      (Context.renew row col state (slot, f)).1[slot']? = state.1[slot']? := by
    intro slot' hne
    exact Array.getElem?_setIfInBounds_ne hne
  refine ⟨?_, fun slot' hmem => ?_, fun slot' hmem => ?_, hcache⟩
  · exact (Array.size_setIfInBounds ..).trans h.size_slots
  · by_cases heq : slot = slot'
    · exact heq ▸ hself
    · rw [hother slot' heq]
      rcases List.mem_append.1 hmem with hmem | hmem
      · exact h.renewed slot' hmem
      · exact absurd (List.mem_singleton.1 hmem).symm heq
  · rw [List.mem_append, List.mem_singleton, not_or] at hmem
    rw [hother slot' (Ne.symm hmem.2)]
    exact h.kept slot' hmem.1

/-- Renewing the slots of a list of feeds. -/
theorem Renewed.foldl_renew {before : Array Value} (hcell : InGrids c.inputs row col) :
    ∀ {feeds : List (Nat × Feed)} {done : List Nat} {state : Array Value × Cache},
      (∀ slot f, (slot, f) ∈ feeds →
        ∃ v, c.slots[slot]? = some v ∧ roleOf c.inputs v.kind = .ok (.renewed f)) →
      Renewed c row col before done state →
      Renewed c row col before (done ++ feeds.map (·.1))
        (feeds.foldl (Context.renew row col) state)
  | [], done, state, _, h => by
    rwa [List.map_nil, List.append_nil]
  | (slot, f) :: feeds, done, state, hfeeds, h => by
    obtain ⟨v, hslot, hrole⟩ := hfeeds slot f List.mem_cons_self
    have hrest := foldl_renew hcell
      (fun slot' f' hmem => hfeeds slot' f' (List.mem_cons_of_mem _ hmem))
      (h.renew hslot hrole hcell)
    rwa [List.append_assoc] at hrest

/-- What holds of a worker of a plan wherever it has been: the slots that are not renewed hold the
values of the template, and the cache is faithful. -/
structure Sound (c : Catalog) (plan : Plan) (ctx : Context) : Prop where
  /-- Every slot has a value. -/
  size_slots : ctx.slots.size = c.slots.size
  /-- A slot that is not renewed holds the value of the template. -/
  kept : ∀ slot ∉ plan.feeds.map (·.1), ctx.slots[slot]? = plan.template[slot]?
  /-- The cache is faithful. -/
  cache : ctx.cache.Faithful c.inputs

variable {es : List Compiled}

/-- A worker that has not visited a cell is sound. -/
theorem sound_fresh (hplan : plan.Renews c (referenced c es)) : (fresh plan).Sound c plan :=
  ⟨hplan.size_template, fun _ _ => rfl, Cache.faithful_empty c.inputs⟩

/-- The slots of a worker that moves to a cell. -/
theorem renewed_moveTo (hplan : plan.Renews c (referenced c es)) (hctx : ctx.Sound c plan)
    (hcell : InGrids c.inputs row col) :
    Renewed c row col ctx.slots (plan.feeds.map (·.1))
      ((ctx.moveTo plan row col).slots, (ctx.moveTo plan row col).cache) := by
  have hstart : Renewed c row col ctx.slots [] (ctx.slots, ctx.cache) :=
    ⟨hctx.size_slots, fun _ h => absurd h List.not_mem_nil, fun _ _ => rfl, hctx.cache⟩
  exact hstart.foldl_renew hcell hplan.feed

/-- A sound worker stays sound wherever it moves. -/
theorem sound_moveTo (hplan : plan.Renews c (referenced c es)) (hctx : ctx.Sound c plan)
    (hcell : InGrids c.inputs row col) : (ctx.moveTo plan row col).Sound c plan := by
  have hmoved := renewed_moveTo hplan hctx hcell
  exact ⟨hmoved.size_slots, fun slot hslot => (hmoved.kept slot hslot).trans (hctx.kept slot hslot),
    hmoved.cache⟩

/-- **Slots at a cell**: after a worker has moved to a cell, the slots that a formula reads hold
what they are worth there, wherever the worker has been before. -/
theorem agreeOn_moveTo (hplan : plan.Renews c (referenced c es)) (hctx : ctx.Sound c plan)
    (hcell : InGrids c.inputs row col) {e : Compiled} (he : e ∈ es) :
    Expr.AgreeOn e.program.tree.references (ctx.moveTo plan row col).slots (c.slotsAt row col) := by
  have hmoved := renewed_moveTo hplan hctx hcell
  intro slot hslot
  by_cases hlt : slot < c.slots.size
  · by_cases hfeed : slot ∈ plan.feeds.map (·.1)
    · exact hmoved.renewed slot hfeed
    · rcases hplan.settled slot (mem_referenced he hslot hlt) with hmem | hfinal
      · exact absurd hmem hfeed
      · rw [hmoved.kept slot hfeed, hctx.kept slot hfeed, hfinal row col]
  · have hnone : c.slots[slot]? = none := Array.getElem?_eq_none (Nat.le_of_not_lt hlt)
    rw [c.getElem?_slotsAt, hnone, Option.map_none]
    exact Array.getElem?_eq_none (hmoved.size_slots ▸ Nat.le_of_not_lt hlt)

end Context

end MapAlgebra
