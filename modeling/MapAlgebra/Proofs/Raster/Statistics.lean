import MapAlgebra.Function.Reduction
import MapAlgebra.Proofs.Number.Rational
import MapAlgebra.Raster.Statistics
import Mathlib.Data.List.Induction
import Mathlib.Order.Bounds.Basic
import Mathlib.Tactic.FieldSimp

/-!
# What band statistics are

One pass over the samples of a band gathers its statistics, each sample moving a mean and a sum of
squared deviations. Main statement: **`band_statistics`**. In exact numbers these are the
statistics of the samples by their definitions (`Statistics.Describes`): the order of the samples
does not matter, and the mean and the variance are those of the reductions, which go over the
samples twice.

What carries the pass is that after any samples the mean times their number is their sum, and the
squares are the squared deviations from that mean (`Tally.Summarises`). When a sample moves the
mean, the deviations of all samples before it change. How they change is known (`deviations_shift`):
about a centre beside the mean, squared deviations grow by the square of the distance for each
sample.
-/

namespace MapAlgebra

variable {xs ys : List ℚ} {x : ℚ}

/-! ### Squared deviations -/

/-- The squared deviations of samples from a centre, summed. -/
def deviations (xs : List ℚ) (center : ℚ) : ℚ :=
  (xs.map fun x => (x - center) ^ 2).sum

theorem deviations_append (xs : List ℚ) (x center : ℚ) :
    deviations (xs ++ [x]) center = deviations xs center + (x - center) ^ 2 := by
  simp [deviations]

theorem deviations_eq (xs : List ℚ) (center : ℚ) : deviations xs center =
    (xs.map (· ^ 2)).sum - 2 * center * xs.sum + xs.length * center ^ 2 := by
  induction xs using List.reverseRecOn with
  | nil => simp [deviations]
  | append_singleton xs x ih =>
    rw [deviations_append, ih]
    simp only [List.map_append, List.sum_append, List.length_append, List.map_singleton,
      List.sum_singleton, List.length_singleton, Nat.cast_add, Nat.cast_one]
    ring

/-- Squared deviations about the mean grow when the centre moves away from it. -/
theorem deviations_shift {mean : ℚ} (h : mean * xs.length = xs.sum) (center : ℚ) :
    deviations xs center = deviations xs mean + xs.length * (center - mean) ^ 2 := by
  rw [deviations_eq, deviations_eq, ← h]
  ring

/-! ### Extremes -/

/-- Extremes are the least and the greatest of some samples, and there are none of no sample. -/
def AreExtremes (xs : List ℚ) : Option (ℚ × ℚ) → Prop
  | none => xs = []
  | some (low, high) => IsLeast {x | x ∈ xs} low ∧ IsGreatest {x | x ∈ xs} high

theorem areExtremes_widen {extremes : Option (ℚ × ℚ)} (h : AreExtremes xs extremes) (x : ℚ) :
    AreExtremes (xs ++ [x]) (some (Tally.widen extremes x)) := by
  have hset : {y | y ∈ xs ++ [x]} = insert x {y | y ∈ xs} := by
    ext y
    simp [or_comm]
  cases extremes with
  | none =>
    rw [AreExtremes] at h
    subst h
    simp [AreExtremes, Tally.widen]
  | some bounds =>
    obtain ⟨low, high⟩ := bounds
    obtain ⟨hlow, hhigh⟩ := h
    have hwiden : Tally.widen (some (low, high)) x = (min x low, max x high) := by
      simp only [Tally.widen, Prod.mk.injEq]
      constructor
      · split <;> grind
      · split <;> grind
    rw [hwiden, AreExtremes, hset]
    exact ⟨hlow.insert x, hhigh.insert x⟩

/-! ### The pass -/

namespace Tally

theorem ofList_append {α : Type} [Scalar α] [LT α] [DecidableLT α] (xs : List α) (x : α) :
    ofList (xs ++ [x]) = (ofList xs).add x :=
  List.foldl_append ..

/-- What is known after a pass over some samples. -/
structure Summarises (t : Tally ℚ) (xs : List ℚ) : Prop where
  /-- How many there are. -/
  count_eq : t.count = xs.length
  /-- Their sum. -/
  sum_eq : t.sum = xs.sum
  /-- Their mean, if there are any. -/
  mean_mul : t.mean * xs.length = xs.sum
  /-- Their squared deviations from the mean. -/
  squares_eq : t.squares = deviations xs t.mean
  /-- Their extremes. -/
  extremes : AreExtremes xs t.extremes

theorem summarises_empty : Summarises empty [] where
  count_eq := rfl
  sum_eq := rfl
  mean_mul := by simp
  squares_eq := by
    simp [empty, deviations, Scalar.zero]
  extremes := rfl

/-- One more sample. -/
theorem Summarises.add {t : Tally ℚ} (h : t.Summarises xs) (x : ℚ) :
    (t.add x).Summarises (xs ++ [x]) := by
  have hmean : (t.add x).mean = t.mean + (x - t.mean) / (xs.length + 1) := by
    simp [Tally.add, h.count_eq]
  have hsquares : (t.add x).squares = t.squares + (x - t.mean) * (x - (t.add x).mean) := rfl
  refine ⟨?_, ?_, ?_, ?_, areExtremes_widen h.extremes x⟩
  · simp [Tally.add, h.count_eq]
  · simp [Tally.add, h.sum_eq]
  · have hlength : ((xs ++ [x]).length : ℚ) = xs.length + 1 := by simp
    rw [hmean, hlength, List.sum_append, List.sum_singleton, ← h.mean_mul]
    field_simp
    ring
  · -- the deviations before `x` are about the old mean
    rw [hsquares, h.squares_eq, deviations_append,
      deviations_shift h.mean_mul (t.add x).mean, hmean]
    field_simp
    ring

/-- Any samples. -/
theorem summarises_ofList (xs : List ℚ) : (ofList xs).Summarises xs := by
  induction xs using List.reverseRecOn with
  | nil => exact summarises_empty
  | append_singleton xs x ih =>
    rw [ofList_append]
    exact ih.add x

end Tally

/-! ### The reductions -/

theorem Scalar.sumFrom_eq (start : ℚ) (xs : List ℚ) : sumFrom start xs = start + xs.sum := by
  induction xs generalizing start with
  | nil => simp [sumFrom]
  | cons x xs ih =>
    have hnext : sumFrom start (x :: xs) = sumFrom (start + x) xs := rfl
    rw [hnext, ih, List.sum_cons, add_assoc]

theorem Scalar.mean_eq (xs : List ℚ) : mean xs = xs.sum / xs.length := by
  have hzero : (zero : ℚ) + xs.sum = xs.sum := zero_add _
  rw [mean, sumFrom_eq, hzero, Scalar.ofNat_rat]

theorem Scalar.variance_eq (xs : List ℚ) : variance xs = deviations xs (mean xs) / xs.length := by
  have hzero (q : ℚ) : (zero : ℚ) + q = q := zero_add q
  unfold variance
  dsimp only
  rw [sumFrom_eq, hzero, Scalar.ofNat_rat, deviations]
  simp only [sq]

/-! ### The statistics -/

namespace Statistics

/-- The statistics of samples by their definitions. -/
structure Describes (s : Statistics ℚ) (xs : List ℚ) : Prop where
  /-- The least sample. -/
  isLeast : IsLeast {x | x ∈ xs} s.min
  /-- The greatest sample. -/
  isGreatest : IsGreatest {x | x ∈ xs} s.max
  /-- The sum of the samples. -/
  sum_eq : s.sum = xs.sum
  /-- Their mean. -/
  mean_eq : s.mean = xs.sum / xs.length
  /-- The mean of their squared deviations from the mean. -/
  variance_eq : s.variance = (xs.map fun x => (x - s.mean) ^ 2).sum / xs.length
  /-- How many there are. -/
  validCount_eq : s.validCount = xs.length

/-- The same samples in another order have the same statistics. -/
theorem Describes.unique {s s' : Statistics ℚ} (h : s.Describes xs) (h' : s'.Describes ys)
    (hperm : xs.Perm ys) : s = s' := by
  have hset : {x | x ∈ xs} = {x | x ∈ ys} := Set.ext fun _ => hperm.mem_iff
  have hmin : s.min = s'.min := (hset ▸ h.isLeast).unique h'.isLeast
  have hmax : s.max = s'.max := (hset ▸ h.isGreatest).unique h'.isGreatest
  have hsum : s.sum = s'.sum := by rw [h.sum_eq, h'.sum_eq, hperm.sum_eq]
  have hmean : s.mean = s'.mean := by
    rw [h.mean_eq, h'.mean_eq, hperm.sum_eq, hperm.length_eq]
  have hvariance : s.variance = s'.variance := by
    rw [h.variance_eq, h'.variance_eq, hmean, (hperm.map _).sum_eq, hperm.length_eq]
  have hcount : s.validCount = s'.validCount := by
    rw [h.validCount_eq, h'.validCount_eq, hperm.length_eq]
  obtain ⟨⟩ := s
  obtain ⟨⟩ := s'
  simp_all

/-- There are statistics as soon as there is a sample, whatever numbers the samples are. -/
theorem exists_ofList? {α : Type} [Scalar α] [LT α] [DecidableLT α] {xs : List α} (h : xs ≠ []) :
    ∃ low high, (Tally.ofList xs).extremes = some (low, high) ∧
      ofList? xs = some ⟨low, high, (Tally.ofList xs).mean, (Tally.ofList xs).sum,
        (Tally.ofList xs).squares / Scalar.ofNat (Tally.ofList xs).count,
        (Tally.ofList xs).count⟩ := by
  obtain ⟨front, x, rfl⟩ := (List.eq_nil_or_concat' xs).resolve_left h
  rw [ofList?, Tally.ofList_append]
  exact ⟨_, _, rfl, rfl⟩

theorem describes_ofList? (h : xs ≠ []) : ∃ s, ofList? xs = some s ∧ s.Describes xs := by
  have htally := Tally.summarises_ofList xs
  have hlength : (xs.length : ℚ) ≠ 0 := by simpa using h
  obtain ⟨low, high, hextremes, hstatistics⟩ := exists_ofList? h
  obtain ⟨hlow, hhigh⟩ : AreExtremes xs (some (low, high)) := hextremes ▸ htally.extremes
  refine ⟨_, hstatistics, ?_⟩
  refine ⟨hlow, hhigh, htally.sum_eq, (eq_div_iff hlength).2 htally.mean_mul, ?_, htally.count_eq⟩
  show (Tally.ofList xs).squares / Scalar.ofNat (Tally.ofList xs).count = _
  rw [htally.squares_eq, htally.count_eq]
  rfl

end Statistics

/-- **Band statistics**: one pass over samples gives their number, sum, mean, variance and extremes.
The order of the samples does not matter, and the mean and the variance are those of the reductions,
which calculate the same way whether numbers are exact or not. -/
theorem band_statistics :
    (∀ xs : List ℚ, xs ≠ [] → ∃ s, Statistics.ofList? xs = some s ∧ s.Describes xs ∧
      s.mean = Scalar.mean xs ∧ s.variance = Scalar.variance xs ∧
      ∀ ys, xs.Perm ys → Statistics.ofList? ys = some s) ∧
    ∀ samples : List Float, valid samples ≠ [] →
      Statistics.ofList? (valid samples) = some (Statistics.ofSamples samples) ∧
      Reduction.mean.eval samples = Scalar.mean (valid samples) ∧
      Reduction.var.eval samples = Scalar.variance (valid samples) := by
  constructor
  · intro xs h
    obtain ⟨s, hs, hdescribes⟩ := Statistics.describes_ofList? h
    have hmean : s.mean = Scalar.mean xs := by rw [hdescribes.mean_eq, Scalar.mean_eq]
    refine ⟨s, hs, hdescribes, hmean, ?_, fun ys hperm => ?_⟩
    · rw [hdescribes.variance_eq, Scalar.variance_eq, hmean, deviations]
    · have hys : ys ≠ [] := fun hnil => h (List.perm_nil.1 (hnil ▸ hperm))
      obtain ⟨s', hs', hdescribes'⟩ := Statistics.describes_ofList? hys
      rw [hs', hdescribes.unique hdescribes' hperm]
  · intro samples h
    obtain ⟨low, high, -, hstatistics⟩ := Statistics.exists_ofList? h
    refine ⟨?_, ?_⟩
    · have hsamples : Statistics.ofSamples samples =
          (Statistics.ofList? (valid samples)).getD .none := rfl
      rw [hsamples, hstatistics]
      rfl
    · obtain ⟨x, rest, hvalid⟩ := List.exists_cons_of_ne_nil h
      simp only [Reduction.eval, meanOfValid, varianceOfValid, hvalid, true_and]

/-- Samples with a large offset, in one order and in another, and doubles with one that is no
number. -/
theorem band_statistics_offset :
    let xs : List ℚ := [1000002, 1000000, 1000007, 1000000]
    let ys : List ℚ := [1000000, 1000007, 1000002, 1000000]
    let samples : List Float := [0.5, Number.nan, 3.5]
    xs ≠ [] ∧ xs.Perm ys ∧ valid samples ≠ [] ∧
      (∃ s, Statistics.ofList? xs = some s ∧ s.Describes xs ∧ s.variance = 131 / 16 ∧
        Statistics.ofList? ys = some s) ∧
      Reduction.var.eval samples = Scalar.variance (valid samples) := by
  intro xs ys samples
  have hxs : xs ≠ [] := List.cons_ne_nil _ _
  have hperm : xs.Perm ys := by decide +kernel
  have hsamples : valid samples ≠ [] := by decide +kernel
  obtain ⟨hexact, hdoubles⟩ := band_statistics
  obtain ⟨s, hs, hdescribes, -, hvariance, horder⟩ := hexact xs hxs
  have hvalue : Scalar.variance xs = 131 / 16 := by decide +kernel
  exact ⟨hxs, hperm, hsamples, ⟨s, hs, hdescribes, hvariance.trans hvalue, horder ys hperm⟩,
    (hdoubles samples hsamples).2.2⟩

end MapAlgebra
