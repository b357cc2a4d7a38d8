import MapAlgebra.Proofs.Pass.Interpreter

/-!
# Samples that are no number

A whole type has no sample for what is no number, so the samples of a buffer that are none are
lost when they are stored. Main statement: **`Plan.nans_evaluate`** says how many there are: those
that have been counted one by one as they were clamped, and one for each band at each cell where the
formula had no value, which have been counted once for the cell.

A buffer begins with nothing that is a number, and each visit overwrites one cell of it. So the
invariant (`Buffer.Balances`) counts the cells that are still to be visited along with what has been
written.
-/

namespace MapAlgebra

/-! ### Counting in a buffer -/

namespace Buffer

/-- How many samples are no number. -/
def nans (b : Buffer) : Nat := b.samples.countP Float.isNaN

theorem nans_blank (region : Region) (bands : Nat) :
    (blank region bands).nans = bands * region.size := by
  unfold nans blank
  rw [Array.countP_replicate, if_pos Number.isNaN_nan]

theorem get_blank (region : Region) (bands band row col : Nat) :
    (blank region bands).get band row col = Number.nan := by
  unfold get blank
  rw [Array.getElem?_replicate]
  split <;> rfl

variable {b : Buffer} {band row col : Nat}

/-- Overwriting a sample that is no number. -/
theorem nans_putAt (hb : b.Full) (hband : band < b.bands) (hrow : row < b.region.rows)
    (hcol : col < b.region.cols) (hnan : (b.get band row col).isNaN = true) (x : Float) :
    (b.putAt band row col x).nans + 1 = b.nans + if x.isNaN then 1 else 0 := by
  have hlt : b.index band row col < b.samples.size := by
    rw [hb]
    exact RowMajor.stack_lt hband hrow hcol
  have hget : b.samples[b.index band row col].isNaN = true := by
    rw [get, Array.getElem?_eq_getElem hlt] at hnan
    exact hnan
  have hpos : 0 < b.nans := Array.countP_pos_iff.2 ⟨_, Array.getElem_mem hlt, hget⟩
  have hset : (b.putAt band row col x).nans = b.nans - 1 + if x.isNaN then 1 else 0 := by
    unfold nans putAt
    dsimp only
    rw [Array.setIfInBounds, dif_pos hlt, Array.countP_set, if_pos hget]
  omega

/-- Overwriting some bands of a cell, none of which holds a number. -/
theorem nans_putFrom (hb : b.Full) (hrow : row < b.region.rows) (hcol : col < b.region.cols)
    {xs : List Float} (hxs : band + xs.length ≤ b.bands)
    (hnan : ∀ i, band ≤ i → i < b.bands → (b.get i row col).isNaN = true) :
    (b.putFrom row col band xs).nans + xs.length = b.nans + xs.countP Float.isNaN := by
  induction xs generalizing b band with
  | nil => rfl
  | cons x xs ih =>
    rw [List.length_cons] at hxs
    have hone := nans_putAt hb (by omega) hrow hcol (hnan band le_rfl (by omega)) x
    have hrest := ih (b := b.putAt band row col x) (full_putAt hb) hrow hcol
      (by show band + 1 + xs.length ≤ b.bands; omega) fun i hle hlt => by
        rw [get_putAt_of_ne hrow hcol hrow hcol (Or.inr (by omega))]
        exact hnan i (by omega) hlt
    rw [putFrom_cons, List.length_cons, List.countP_cons]
    omega

/-! ### Counting along the cells -/

/-- A buffer over a region and what has been counted for it, the cells `left` still to be
visited. -/
structure Balances (b : Buffer) (region : Region) (bands : Nat) (d : Diagnostics)
    (left : List (Nat × Nat)) : Prop where
  /-- The region. -/
  region_eq : b.region = region
  /-- The number of bands. -/
  bands_eq : b.bands = bands
  /-- There is one sample for each band and cell. -/
  full : b.Full
  /-- A cell that is still to be visited holds no number. -/
  untouched : ∀ cell ∈ left, ∀ band < bands, (b.get band cell.1 cell.2).isNaN = true
  /-- What is no number has been counted, or lies in a cell without a value, or in one that is
  still to be visited. -/
  nans_eq : b.nans = d.nanToInteger + bands * d.runtimeErrors + bands * left.length

theorem balances_blank (region : Region) (bands : Nat) :
    (blank region bands).Balances region bands .none region.cells where
  region_eq := rfl
  bands_eq := rfl
  full := full_blank region bands
  untouched cell _ band _ := by
    rw [get_blank]
    exact Number.isNaN_nan
  nans_eq := by
    rw [nans_blank, Region.cells_eq_product, List.length_product, List.length_range,
      List.length_range]
    show bands * (region.rows * region.cols) = 0 + bands * 0 + bands * (region.rows * region.cols)
    omega

/-- Visiting one more cell, for which `d'` has been counted. -/
theorem Balances.put {region : Region} {bands : Nat} {d d' : Diagnostics} {cell : Nat × Nat}
    {left : List (Nat × Nat)} (h : b.Balances region bands d (cell :: left))
    (hnodup : (cell :: left).Nodup) (hinside : ∀ cell' ∈ cell :: left, cell' ∈ region.cells)
    {xs : List Float} (hxs : xs.length = bands)
    (hcount : xs.countP Float.isNaN = d'.nanToInteger + bands * d'.runtimeErrors) :
    (b.put cell.1 cell.2 xs).Balances region bands (d + d') left := by
  obtain ⟨rfl, rfl, hfull, huntouched, hnans⟩ := h
  obtain ⟨hrow, hcol⟩ := Region.mem_cells.1 (hinside cell List.mem_cons_self)
  refine ⟨region_putFrom .., bands_putFrom .., full_putFrom _ _ _ _ hfull,
    fun cell' hleft band hband => ?_, ?_⟩
  · obtain ⟨hrow', hcol'⟩ := Region.mem_cells.1 (hinside cell' (List.mem_cons_of_mem _ hleft))
    have hne : cell' ≠ cell := fun heq => (List.nodup_cons.1 hnodup).1 (heq ▸ hleft)
    rw [Buffer.put, get_putFrom_of_ne hrow hcol hrow' hcol' (Or.inl hne)]
    exact huntouched cell' (List.mem_cons_of_mem _ hleft) band hband
  · have hput : (b.put cell.1 cell.2 xs).nans + xs.length = b.nans + xs.countP Float.isNaN :=
      nans_putFrom hfull hrow hcol (by omega) fun i _ hi =>
        huntouched cell List.mem_cons_self i hi
    have herrors : b.bands * (d + d').runtimeErrors =
        b.bands * d.runtimeErrors + b.bands * d'.runtimeErrors := Nat.mul_add ..
    have hadd : (d + d').nanToInteger = d.nanToInteger + d'.nanToInteger := rfl
    rw [List.length_cons, Nat.mul_add, Nat.mul_one] at hnans
    omega

end Buffer

/-! ### What a formula writes -/

namespace PixelType

variable {t : PixelType}

/-- Clamping keeps what is a number a number. -/
theorem isNaN_clamp (t : PixelType) (x : Float) : (t.clamp x).1.isNaN = x.isNaN := by
  have hrange : t.range.1.isNaN = false ∧ t.range.2.isNaN = false := by
    cases t <;> decide +kernel
  unfold clamp
  dsimp only
  split
  · rfl
  · next hx =>
    rw [Bool.not_eq_true] at hx
    split
    · rw [hrange.1, hx]
    · split
      · rw [hrange.2, hx]
      · rfl

/-- What is counted for a sample of a whole type that is no number. -/
theorem nanToInteger_clamp (hwhole : t.isFloat = false) (x : Float) :
    (t.clamp x).2.nanToInteger = if x.isNaN then 1 else 0 := by
  unfold clamp
  dsimp only
  split
  · rw [if_neg (by rw [hwhole]; exact Bool.false_ne_true)]
  · split
    · rfl
    · split <;> rfl

/-- What is counted for some samples of a whole type. -/
theorem nanToInteger_sum_clamp (hwhole : t.isFloat = false) (xs : List Float) :
    (Diagnostics.sum (xs.map fun x => (t.clamp x).2)).nanToInteger = xs.countP Float.isNaN := by
  induction xs with
  | nil => rfl
  | cons x xs ih =>
    rw [List.map_cons, Diagnostics.sum_cons, List.countP_cons, ← ih, ← nanToInteger_clamp hwhole x]
    exact Nat.add_comm ..

end PixelType

/-- Of the samples that a formula writes to a cell of a whole type, those that are no number have
been counted one by one, or the cell has been counted as one without a value. -/
theorem Task.countP_samples (task : Task) (hwhole : task.output.pixelType.isFloat = false)
    (slots : Array Value) :
    (task.samples slots).1.countP Float.isNaN =
      (task.samples slots).2.nanToInteger + task.output.bands * (task.samples slots).2.runtimeErrors
    := by
  unfold samples
  split
  · next xs _ =>
    have herrors : (Diagnostics.sum ((xs.map task.output.pixelType.clamp).map (·.2))).runtimeErrors
        = 0 := by
      refine Diagnostics.runtimeErrors_sum fun d hd => ?_
      obtain ⟨y, hy, rfl⟩ := List.mem_map.1 hd
      obtain ⟨x, -, rfl⟩ := List.mem_map.1 hy
      exact Diagnostics.runtimeErrors_clamp _ x
    dsimp only
    rw [herrors, Nat.mul_zero, Nat.add_zero, List.map_map, List.map_map, List.countP_map]
    show xs.countP (fun x => (task.output.pixelType.clamp x).1.isNaN) = _
    rw [List.countP_congr fun x _ => by rw [PixelType.isNaN_clamp]]
    exact (PixelType.nanToInteger_sum_clamp hwhole xs).symm
  · show (List.replicate task.output.bands Number.nan).countP Float.isNaN =
      0 + task.output.bands * 1
    rw [List.countP_replicate, if_pos Number.isNaN_nan]
    omega

/-! ### A region -/

namespace Progress

/-- For each formula that is written to a whole type, the buffer and what has been counted balance,
the cells `left` still to be visited. -/
def Balances (plan : Plan) (region : Region) (left : List (Nat × Nat)) (p : Progress) : Prop :=
  ∀ (i : Nat) (task : Task), plan.tasks[i]? = some task →
    task.output.pixelType.isFloat = false →
    ∃ b d, p.buffers[i]? = some b ∧ p.context.diagnostics[i]? = some d ∧
      b.Balances region task.output.bands d left

variable {plan : Plan} {region : Region} {p : Progress} {cell : Nat × Nat}
  {left : List (Nat × Nat)}

/-- A visit of one more cell of the region. -/
theorem Balances.visit (h : p.Balances plan region (cell :: left)) (hnodup : (cell :: left).Nodup)
    (hinside : ∀ cell' ∈ cell :: left, cell' ∈ region.cells) :
    (p.visit plan region cell).Balances plan region left := by
  intro i task htask hwhole
  obtain ⟨b, d, hb, hd, hbalances⟩ := h i task htask hwhole
  let slots := (p.context.moveTo plan (region.rowOffset + cell.1) (region.colOffset + cell.2)).slots
  refine ⟨b.put cell.1 cell.2 (task.samples slots).1, d + (task.samples slots).2, ?_, ?_,
    hbalances.put hnodup hinside (task.length_samples slots) (task.countP_samples hwhole slots)⟩
  · show (List.zipWith _ p.buffers (plan.tasks.map _))[i]? = _
    rw [List.getElem?_zipWith, hb, List.getElem?_map, htask]
    rfl
  · show (List.zipWith _ p.context.diagnostics (plan.tasks.map _))[i]? = _
    rw [List.getElem?_zipWith, hd, List.getElem?_map, htask]
    rfl

/-- Visits of some more cells of the region, one after the other. -/
theorem Balances.foldl_visit (h : p.Balances plan region left) (hnodup : left.Nodup)
    (hinside : ∀ cell ∈ left, cell ∈ region.cells) :
    (left.foldl (Progress.visit plan region) p).Balances plan region [] := by
  induction left generalizing p with
  | nil => exact h
  | cons cell left ih =>
    exact ih (h.visit hnodup hinside) (List.nodup_cons.1 hnodup).2
      fun cell' hcell => hinside cell' (List.mem_cons_of_mem _ hcell)

end Progress

/-- **Samples that are no number**: of what a worker that begins afresh writes over a region for a
formula of a whole type, the samples that are no number are those that have been counted as such and
one for each band at each cell without a value. So the count misses some exactly when there was such
a cell, if the formula has a band. -/
theorem Plan.nans_evaluate (plan : Plan) (region : Region) {i : Nat} {task : Task}
    (htask : plan.tasks[i]? = some task) (hwhole : task.output.pixelType.isFloat = false) :
    let p := plan.evaluate region (.fresh plan)
    ∃ b d, p.buffers[i]? = some b ∧ p.context.diagnostics[i]? = some d ∧
      b.region = region ∧ b.bands = task.output.bands ∧
      b.nans = d.nanToInteger + b.bands * d.runtimeErrors ∧
      (d.nanToInteger = b.nans ↔ d.runtimeErrors = 0 ∨ b.bands = 0) := by
  intro p
  have hstart : Progress.Balances plan region region.cells
      ⟨.fresh plan, plan.tasks.map fun task => .blank region task.output.bands⟩ := by
    intro i task htask _
    refine ⟨.blank region task.output.bands, .none, ?_, ?_, Buffer.balances_blank _ _⟩
    · rw [List.getElem?_map, htask, Option.map_some]
    · show (plan.tasks.map _)[i]? = _
      rw [List.getElem?_map, htask, Option.map_some]
  obtain ⟨b, d, hb, hd, hregion, hbands, -, -, hnans⟩ :=
    hstart.foldl_visit (Region.nodup_cells region) (fun _ h => h) i task htask hwhole
  have hnans : b.nans = d.nanToInteger + b.bands * d.runtimeErrors := by
    rw [hnans, hbands, List.length_nil, Nat.mul_zero, Nat.add_zero]
  refine ⟨b, d, hb, hd, hregion, hbands, hnans, ?_⟩
  have hmissed : d.nanToInteger = b.nans ↔ b.bands * d.runtimeErrors = 0 := by omega
  rw [hmissed, Nat.mul_eq_zero, or_comm]

/-! ### A formula without a value -/

namespace Sample

/-- One row of two cells. -/
def pair : Source := ⟨valueOf (Raster.ofSamples .f64 1 1 2 [0, 4]) (by decide +kernel), false⟩

/-- The catalog of these cells. -/
def registeredPair : Nat × Catalog :=
  valueOf (Catalog.initial.register pair none) (by decide +kernel)

/-- The compilation of a formula that picks the band numbered by a cell and one, to bytes. -/
def compilePicked : Except Failure Compiled × Catalog :=
  registeredPair.2.compile "bands(im1, \x7bim1b1 + 1\x7d)" .u8

/-- The band numbered by a cell and one, of which there is the first only. -/
def picked : Compiled := valueOf compilePicked.1 (by decide +kernel)

/-- The plan of this formula. -/
def pickedPlan : Plan := valueOf (Plan.ofCompiled compilePicked.2 [picked]) (by decide +kernel)

theorem tasks_pickedPlan : pickedPlan.tasks = [picked.task] :=
  (Plan.renews_of_ofCompiled (eq_ok_valueOf _)).2

end Sample

/-- How the buffer of a formula has been counted that picks a missing band at the second cell. -/
theorem Plan.nans_evaluate_picked :
    let p := Sample.pickedPlan.evaluate (.full 1 2) (.fresh Sample.pickedPlan)
    Sample.pickedPlan.tasks[0]? = some Sample.picked.task ∧
      Sample.picked.task.output.pixelType.isFloat = false ∧
      ∃ b d, p.buffers[0]? = some b ∧ p.context.diagnostics[0]? = some d ∧
        b.nans = d.nanToInteger + b.bands * d.runtimeErrors := by
  intro p
  have htask : Sample.pickedPlan.tasks[0]? = some Sample.picked.task := by
    rw [Sample.tasks_pickedPlan]
    rfl
  have hwhole : Sample.picked.task.output.pixelType.isFloat = false := by decide +kernel
  obtain ⟨b, d, hb, hd, -, -, hnans, -⟩ := nans_evaluate Sample.pickedPlan (.full 1 2) htask hwhole
  exact ⟨htask, hwhole, b, d, hb, hd, hnans⟩

/-- The second cell of this formula holds what is no number, and it has not been counted as such. -/
theorem Plan.nanToInteger_ne_nans :
    let p := Sample.pickedPlan.evaluate (.full 1 2) (.fresh Sample.pickedPlan)
    Sample.pickedPlan.tasks.map (·.output.pixelType) = [.u8] ∧ p.buffers.map Buffer.nans = [1] ∧
      p.context.diagnostics = [{ Diagnostics.none with runtimeErrors := 1 }] := by
  decide +kernel

end MapAlgebra
