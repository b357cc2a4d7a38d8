import MapAlgebra.Proofs.Function.Majority
import MapAlgebra.Proofs.Number.Round
import MapAlgebra.Proofs.Value.Loose

/-!
# Functions of values that count nothing

A function looks up its arguments by index, `min` and `max` the first cell of each, the median the
middle of the numbers in order, the majority both ends of each run, and `bands` the components that
samples number. Main statement: **`Loose.apply_follows`**. On values that count their cells nothing
is looked up that is not there.

An index of `bands` is a sample, rounded and compared with one and with the number of components
before it is cut to a whole number. What passes has a whole part in that range
(`Number.truncate_of_between`), and as rounding gives whole numbers, what does not pass has none
(`Number.between_of_truncate`). Both hold as long as the number of components is a double itself. A
row of `2 ^ 53` doubles takes `2 ^ 56` bytes, which no address space has room for.
-/

namespace MapAlgebra.Loose

open Access Number

/-! ### Order statistics -/

/-- The middle number in sorted order, the upper one of two. -/
def median (xs : List Float) : Access Float :=
  let sorted := sortValid xs
  if sorted.isEmpty then pure nan else look sorted (sorted.length / 2)

/-- The place behind a run that begins at `start` and reaches to `j` at least. -/
def runEnd (sorted : List Float) (start j : Nat) : Access Nat :=
  if j < sorted.length then do
    let y ← look sorted j
    let x ← look sorted start
    if y == x then runEnd sorted start (j + 1) else return j
  else return j
termination_by sorted.length - j

/-- The first sample of the longest run, in so many steps at most. -/
def longestRun (sorted : List Float) : Nat → RunSearch → Access Float
  | 0, _ => outside
  | steps + 1, s =>
    if s.start < sorted.length then do
      let stop ← runEnd sorted s.start s.start
      let x ← look sorted s.start
      let best := longer (s.best, s.length) (x, stop - s.start)
      longestRun sorted steps ⟨stop, best.1, best.2⟩
    else return s.best

/-- The number with the most numerically equal numbers in a list, the smallest of those that tie. -/
def majority (xs : List Float) : Access Float :=
  let sorted := sortValid xs
  longestRun sorted (sorted.length + 1) ⟨0, nan, 0⟩

/-- What a reduction makes of a list of samples. -/
def reduce (r : Reduction) (xs : List Float) : Access Float :=
  match r with
  | .median => median xs
  | .maj => majority xs
  | r => pure (r.eval xs)

theorem median_eq (xs : List Float) : median xs = pure (Reduction.median.eval xs) := by
  show median xs = pure ((sortValid xs)[(sortValid xs).length / 2]?.getD nan)
  unfold median
  cases hsorted : sortValid xs with
  | nil => rfl
  | cons x rest =>
    have hmiddle : (x :: rest).length / 2 < (x :: rest).length :=
      Nat.div_lt_self (Nat.succ_pos _) (by decide)
    have hx := List.getElem?_eq_getElem hmiddle
    rw [hx]
    exact look_of_getElem? hx

/-- A run goes on as long as samples are equal to its first. -/
theorem runEnd_eq {sorted : List Float} {start : Nat} {x : Float} (hx : sorted[start]? = some x)
    (j : Nat) :
    runEnd sorted start j = pure (j + ((sorted.drop j).takeWhile (· == x)).length) := by
  unfold runEnd
  split
  · next hlt =>
    rw [look_of_getElem? (List.getElem?_eq_getElem hlt), look_of_getElem? hx,
      List.drop_eq_getElem_cons hlt, List.takeWhile_cons]
    show (if sorted[j] == x then runEnd sorted start (j + 1) else pure j) = _
    split
    · next hsame =>
      rw [runEnd_eq hx (j + 1), List.length_cons, Nat.add_right_comm, ← Nat.add_assoc]
    · rfl
  · next hend =>
    rw [List.drop_eq_nil_of_le (by omega)]
    rfl
termination_by sorted.length - j

/-- A search that takes some steps takes no more than it may. -/
theorem longestRun_of_finds {sorted : List Float} {needed : Nat} {s : RunSearch} {m : Float}
    (h : RunSearch.Finds sorted needed s m) {steps : Nat} (hsteps : needed < steps) :
    longestRun sorted steps s = pure m := by
  induction h generalizing steps with
  | @done s hnext =>
    obtain ⟨steps, rfl⟩ := Nat.exists_eq_add_of_lt hsteps
    have hend : ¬s.start < sorted.length := by
      intro hlt
      rw [RunSearch.next?, List.drop_eq_getElem_cons hlt] at hnext
      cases hnext
    rw [longestRun, if_neg hend]
  | @step s s' needed m hnext _ _ ih =>
    obtain ⟨steps, rfl⟩ : ∃ k, steps = k + 1 := ⟨steps - 1, by omega⟩
    have hlt : s.start < sorted.length := by
      by_contra hend
      rw [RunSearch.next?, List.drop_eq_nil_of_le (by omega)] at hnext
      cases hnext
    have hx := List.getElem?_eq_getElem hlt
    have hdrop := List.drop_eq_getElem_cons hlt
    rw [RunSearch.next?, hdrop] at hnext
    cases hnext
    rw [longestRun, if_pos hlt, runEnd_eq hx, look_of_getElem? hx, hdrop]
    refine Eq.trans ?_ (ih (Nat.lt_of_succ_lt_succ hsteps))
    show longestRun sorted steps _ = _
    rw [Nat.add_sub_cancel_left]

theorem majority_eq (xs : List Float) : majority xs = pure (Reduction.maj.eval xs) := by
  have hfinds := RunSearch.finds_runs (l := sortValid xs) (fun _ => isNaN_of_mem_sortValid)
    ⟨0, nan, 0⟩
  exact longestRun_of_finds hfinds (Nat.lt_succ_of_le (length_runs_le _))

/-- Reductions look up nothing that is not there. -/
theorem reduce_eq (r : Reduction) (xs : List Float) : reduce r xs = pure (r.eval xs) := by
  cases r with
  | median => exact median_eq xs
  | maj => exact majority_eq xs
  | min | max | mean | var | sum => rfl

/-! ### Picking bands -/

/-- The place that a sample is cut to: a sample that is no number gives the first one, and one that
is too small or too large gives the first or the last. -/
def place (x : Float) : Nat := (truncateInto 0 (2 ^ 64 - 1) x).toNat

/-- The component that `index`, rounded to the nearest whole number, picks from one on. -/
def pick (components : List Float) (index : Float) : Access Float :=
  let i := nearestWhole index
  if 1.0 ≤ i ∧ i ≤ Float.ofNat components.length then
    match place i with
    | 0 => outside
    | k + 1 => look components k
  else throw (.indexOutOfRange (.function .bands) index components.length)

/-- No index of `bands` gets past the comparisons and leaves the components. -/
theorem pick_follows {components : List Float} (hlength : components.length < 2 ^ 53)
    (index : Float) :
    Follows id (pick components index) (MapAlgebra.pick components index) := by
  unfold pick MapAlgebra.pick place
  dsimp only
  split
  · next hbetween =>
    obtain ⟨e, hreading, hlow, hhigh⟩ := truncate_of_between hlength hbetween.1 hbetween.2
    obtain ⟨k, hk⟩ : ∃ k : Nat, e.truncate = k + 1 := ⟨(e.truncate - 1).toNat, by omega⟩
    have hcut : ∀ high : Int, e.truncate ≤ high →
        (truncateInto 0 high (nearestWhole index)).toNat = k + 1 := by
      intro high hle
      simp only [truncateInto, hreading]
      omega
    rw [hcut _ (by omega), hcut _ (by omega)]
    have hx := List.getElem?_eq_getElem (show k < components.length by omega)
    simp only [look_of_getElem? hx, hx]
    exact Follows.pure _
  · next hnot =>
    -- A whole part that numbers a component would have got past the comparisons.
    cases hcut : (truncateInto 0 (components.length + 1) (nearestWhole index)).toNat with
    | zero => rfl
    | succ k =>
      have hnone : components[k]? = none := by
        refine List.getElem?_eq_none (Nat.le_of_not_lt fun hlt => hnot ?_)
        unfold truncateInto at hcut
        split at hcut
        · cases hcut
        · cases hcut
        · omega
        · next e hreading =>
          exact between_of_truncate hlength hreading (isWhole_nearestWhole hreading) (by omega)
            (by omega)
      simp only [hnone]
      rfl

/-- The components of a row that the components of a second row number. -/
def selectBands (vector indices : Content) : Access Content := do
  let components ← vector.expectRow (.function .bands) .row
  let picks ← indices.expectRow (.function .bands) .indexRow
  return .row (← picks.mapM (pick components))

/-! ### Functions -/

/-- The row of the components of all arguments. -/
def concatenate (args : List Content) : Access Content := do
  let rows ← args.mapM (·.expectRow (.function .cat) .scalarsOrRows)
  return .row rows.flatten

/-- The correlation of two values of one shape over the places where both hold a number. -/
def correlate (a b : Content) : Access Content :=
  if a.shape = b.shape then
    match (a.cells.zip b.cells).filter fun p => !p.1.isNaN && !p.2.isNaN with
    | [] => return .scalar nan
    | p :: pairs => return .scalar (correlationOfPairs (p :: pairs))
  else throw (.shapeMismatch (.function .corr) a.shape b.shape)

/-- The sum of the cells of a window, each weighted by the cell of the kernel in the same place. -/
def weightedSum (kernel window : Content) : Access Float :=
  if window.cells.length = kernel.cells.length then
    return sumSamples (List.zipWith (· * ·) kernel.cells window.cells)
  else
    throw (.dimensionality (.function .conv) (.kernelElements kernel.shape) (.window window.shape))

/-- The weighted sum of each window, as a row. -/
def convolve (kernel : Content) (windows : List Content) : Access Content := do
  return .row (← windows.mapM (weightedSum kernel))

/-- What a reduction makes of its arguments: one component for each, but one scalar when `min` or
`max` is given scalars alone. -/
def reduceAll (r : Reduction) (args : List Content) : Access Content :=
  if r.combinesScalars && args.all (·.isScalar) then do
    let xs ← args.mapM fun a => look a.cells 0
    return .scalar (← reduce r xs)
  else do return .row (← args.mapM fun a => reduce r a.cells)

/-- The value of a function whose arguments are as many as it takes. -/
def applyAccepted (f : Function) (args : List Content) : Access Content := do
  let required := Content.expectScalar (.function f)
  match f with
  | .scalar g => return .scalar (g.eval (← required (← look args 0)))
  | .cellwise g => return (← look args 0).map g.eval
  | .reduce r => reduceAll r args
  | .atan2 => do
    let y ← required (← look args 0)
    let x ← required (← look args 1)
    return .scalar (y.atan2 x)
  | .ndvi => do
    let red ← required (← look args 0)
    let infrared ← required (← look args 1)
    return .scalar (quotient (infrared - red) (infrared + red))
  | .bands => selectBands (← look args 0) (← look args 1)
  | .cat => concatenate args
  | .vmin => return .scalar (least (← look args 0).cells)
  | .vmax => return .scalar (greatest (← look args 0).cells)
  | .vnorm => return .scalar (norm (← look args 0).cells)
  | .vect2scal => return .scalar (← required (← look args 0))
  | .corr => correlate (← look args 0) (← look args 1)
  | .conv => convolve (← look args 0) (← lookFrom args 1)

/-- The value of a function at given arguments. -/
def apply (f : Function) (args : List Content) : Access Content :=
  if f.arity.accepts args.length then applyAccepted f args
  else throw (.dimensionality (.function f) (.arguments f.arity) (.arguments args.length))

/-! ### The functions of values -/

section

variable {a b : Value} {args : List Value}

theorem expectScalar_follows (operation : Operation) (v : Value) :
    Follows id (v.loose.expectScalar operation) (v.expectScalar operation) :=
  Follows.of_settled (expectScalar_loose operation v)

theorem expectRow_follows (operation : Operation) (required : Requirement) (v : Value) :
    Follows id (v.loose.expectRow operation required) (v.expectRow operation required) :=
  Follows.of_settled (expectRow_loose operation required v)

theorem selectBands_follows (hlength : a.cells.length < 2 ^ 53) :
    Follows Value.loose (selectBands a.loose b.loose) (MapAlgebra.selectBands a b) := by
  refine (expectRow_follows _ _ a).bind fun components hcomponents => ?_
  obtain ⟨-, rfl⟩ := Value.expectRow_eq_ok_iff.1 hcomponents
  refine (expectRow_follows _ _ b).bind fun picks _ => ?_
  refine (Follows.mapM picks fun index _ => pick_follows hlength index).bind fun picked _ => ?_
  rw [List.map_id]
  exact Follows.pure (Value.row picked)

theorem concatenate_follows (args : List Value) :
    Follows Value.loose (concatenate (args.map Value.loose)) (MapAlgebra.concatenate args) := by
  unfold concatenate
  rw [List.mapM_map]
  refine (Follows.mapM args fun a _ => expectRow_follows _ _ a).bind fun rows _ => ?_
  rw [List.map_id]
  exact Follows.pure (Value.row rows.flatten)

theorem correlate_follows :
    Follows Value.loose (correlate a.loose b.loose) (MapAlgebra.correlate a b) := by
  unfold correlate MapAlgebra.correlate
  simp only [Value.shape_loose, Value.cells_loose]
  split
  · cases (a.cells.zip b.cells).filter fun p => !p.1.isNaN && !p.2.isNaN with
    | nil => exact Follows.pure (Value.scalar nan)
    | cons p pairs => exact Follows.pure (Value.scalar (correlationOfPairs (p :: pairs)))
  · exact Follows.throw _

theorem weightedSum_follows (kernel window : Value) :
    Follows id (weightedSum kernel.loose window.loose)
      (MapAlgebra.weightedSum kernel window) := by
  unfold weightedSum MapAlgebra.weightedSum
  simp only [Value.shape_loose, Value.cells_loose]
  split
  · exact Follows.pure _
  · exact Follows.throw _

theorem convolve_follows (kernel : Value) (windows : List Value) :
    Follows Value.loose (convolve kernel.loose (windows.map Value.loose))
      (MapAlgebra.convolve kernel windows) := by
  unfold convolve
  rw [List.mapM_map]
  refine (Follows.mapM windows fun w _ => weightedSum_follows kernel w).bind fun xs _ => ?_
  rw [List.map_id]
  exact Follows.pure (Value.row xs)

/-- Scalars have a first cell. -/
theorem mapM_first (h : ∀ a ∈ args, a.isScalar = true) :
    (args.map Value.loose).mapM (fun u => look u.cells 0) = pure (args.flatMap (·.cells)) := by
  induction args with
  | nil => rfl
  | cons a rest ih =>
    obtain ⟨ha, hrest⟩ := List.forall_mem_cons.1 h
    cases a with
    | matrix m => cases ha
    | scalar x =>
      rw [List.map_cons, List.mapM_cons, ih hrest]
      rfl

theorem reduceAll_follows (r : Reduction) (args : List Value) :
    Follows Value.loose (reduceAll r (args.map Value.loose)) (.ok (r.apply args)) := by
  have hscalars : (args.map Value.loose).all (·.isScalar) = args.all (·.isScalar) := by
    rw [List.all_map]
    exact congrArg args.all (funext Value.isScalar_loose)
  unfold reduceAll Reduction.apply
  rw [hscalars]
  split
  · next h =>
    rw [mapM_first (List.all_eq_true.1 (Bool.and_eq_true_iff.1 h).2), pure_bind, reduce_eq]
    exact Follows.pure (Value.scalar _)
  · have hcells : (args.map Value.loose).mapM (fun u => reduce r u.cells) =
        pure (args.map fun a => r.eval a.cells) := by
      rw [List.mapM_map]
      simp only [Value.cells_loose, reduce_eq, Function.comp_def, List.mapM_pure]
    rw [hcells]
    exact Follows.pure (Value.row _)

/-- **Functions** look up nothing that is not there. -/
theorem apply_follows {f : Function}
    (hbands : ∀ a b, f = .bands → args = [a, b] → a.cells.length < 2 ^ 53) :
    Follows Value.loose (apply f (args.map Value.loose)) (f.apply args) := by
  unfold apply
  rw [List.length_map]
  by_cases haccepts : f.arity.accepts args.length = true
  · rw [if_pos haccepts]
    have harity := haccepts
    cases f <;> simp only [Function.arity, Arity.accepts, beq_iff_eq, decide_eq_true_eq] at harity
    case scalar | vect2scal =>
      obtain ⟨a, rfl⟩ := List.length_eq_one_iff.1 harity
      exact (expectScalar_follows _ a).bind fun x _ => Follows.pure (Value.scalar _)
    case cellwise g =>
      obtain ⟨a, rfl⟩ := List.length_eq_one_iff.1 harity
      exact congrArg Access.settled (congrArg Except.ok (map_loose g.eval a))
    case reduce r =>
      cases args with
      | nil => cases harity
      | cons a rest => exact reduceAll_follows r (a :: rest)
    case atan2 | ndvi =>
      obtain ⟨a, b, rfl⟩ := List.length_eq_two.1 harity
      refine (expectScalar_follows _ a).bind fun x _ => ?_
      exact (expectScalar_follows _ b).bind fun y _ => Follows.pure (Value.scalar _)
    case bands =>
      obtain ⟨a, b, rfl⟩ := List.length_eq_two.1 harity
      exact selectBands_follows (hbands a b rfl rfl)
    case cat =>
      cases args with
      | nil => cases harity
      | cons a rest => exact concatenate_follows (a :: rest)
    case vmin | vmax | vnorm =>
      obtain ⟨a, rfl⟩ := List.length_eq_one_iff.1 harity
      cases a <;> exact Follows.pure (Value.scalar _)
    case corr =>
      obtain ⟨a, b, rfl⟩ := List.length_eq_two.1 harity
      exact correlate_follows
    case conv =>
      cases args with
      | nil => cases harity
      | cons kernel images =>
        cases images with
        | nil => exact absurd harity (Nat.not_succ_le_self 1)
        | cons image rest => exact convolve_follows kernel (image :: rest)
  · rw [if_neg haccepts, Function.apply_of_not_accepts haccepts]
    exact Follows.throw _

end

end MapAlgebra.Loose
