import MapAlgebra.Function.Reduction
import MapAlgebra.Proofs.Number.Order

/-!
# Order statistics

The median, the least and the greatest number of a list of samples. Main statement:
**`order_statistics`**. They are no number exactly when no sample is one; the median has its rank in
the total order of samples, the extremes bound all numbers and are attained; and two lists that hold
the same numbers (`SameNumbers`), in whatever order and with whatever missing samples between them,
have the same order statistics, but for the sign of an extreme that is zero. So it does not matter
where a window reaches over the edge of a grid.

Extremes are found from left to right, and which of two equal numbers is kept on the way does not
matter: what is used of the step is that its key is the smaller one of the two (`Chooses`). The
greatest number is the one of the least negated key.
-/

namespace MapAlgebra

open Number

variable {xs ys : List Float} {x y m : Float}

/-! ### The numbers of a list -/

theorem mem_valid : x ∈ valid xs ↔ x ∈ xs ∧ x.isNaN = false := by
  rw [valid, List.mem_filter, Bool.not_eq_true']

theorem isNaN_of_mem_valid (h : x ∈ valid xs) : x.isNaN = false :=
  (mem_valid.1 h).2

theorem valid_eq_nil_iff : valid xs = [] ↔ ∀ x ∈ xs, x.isNaN = true := by
  simp only [valid, List.filter_eq_nil_iff, Bool.not_eq_true', Bool.not_eq_false]

/-- What is a number as soon as a sample of a list is one, is none exactly when no sample is. -/
theorem isNaN_iff_valid_eq_nil (hnumber : valid xs ≠ [] → m.isNaN = false)
    (hnone : valid xs = [] → m.isNaN = true) : m.isNaN = true ↔ valid xs = [] := by
  refine ⟨fun hnan => Classical.byContradiction fun h => ?_, hnone⟩
  exact Bool.false_ne_true ((hnumber h).symm.trans hnan)

/-- Two lists hold the same numbers, in whatever order they come and whatever samples that are no
number stand between them. -/
def SameNumbers (xs ys : List Float) : Prop :=
  (valid xs).Perm (valid ys)

namespace SameNumbers

theorem symm (h : SameNumbers xs ys) : SameNumbers ys xs := List.Perm.symm h

theorem trans {zs : List Float} (h : SameNumbers xs ys) (h' : SameNumbers ys zs) :
    SameNumbers xs zs := List.Perm.trans h h'

/-- The order of samples does not matter. -/
theorem of_perm (h : xs.Perm ys) : SameNumbers xs ys := h.filter _

/-- A sample that is no number does not matter. -/
theorem insert (before after : List Float) (hx : x.isNaN = true) :
    SameNumbers (before ++ after) (before ++ x :: after) := by
  have hskip : valid (before ++ x :: after) = valid (before ++ after) := by
    unfold valid
    rw [List.filter_append, List.filter_append, List.filter_cons_of_neg (by rw [hx]; decide)]
  rw [SameNumbers, hskip]

theorem valid_eq_nil_iff (h : SameNumbers xs ys) : valid xs = [] ↔ valid ys = [] := by
  rw [← List.length_eq_zero_iff, ← List.length_eq_zero_iff, h.length_eq]

end SameNumbers

/-! ### The numbers in order -/

theorem perm_sortValid (xs : List Float) : (sortValid xs).Perm (valid xs) :=
  List.mergeSort_perm ..

theorem sortValid_eq_nil_iff : sortValid xs = [] ↔ valid xs = [] := by
  rw [← List.length_eq_zero_iff, (perm_sortValid xs).length_eq, List.length_eq_zero_iff]

theorem isNaN_of_mem_sortValid (h : x ∈ sortValid xs) : x.isNaN = false :=
  isNaN_of_mem_valid ((perm_sortValid xs).mem_iff.1 h)

theorem pairwise_sortValid (xs : List Float) :
    (sortValid xs).Pairwise fun x y => orderKey x ≤ orderKey y := by
  have hsorted : (sortValid xs).Pairwise fun x y => decide (orderKey x ≤ orderKey y) = true :=
    List.pairwise_mergeSort
      (fun x y z hxy hyz => by simp only [decide_eq_true_eq] at *; omega)
      (fun x y => by simp only [Bool.or_eq_true, decide_eq_true_eq]; omega) (valid xs)
  exact hsorted.imp of_decide_eq_true

/-- The numbers of a list can be put in order in one way only: the total order tells all samples
apart. -/
theorem sortValid_eq_of_perm {l : List Float} (hl : l.Pairwise fun x y => orderKey x ≤ orderKey y)
    (h : l.Perm (valid xs)) : sortValid xs = l :=
  List.Perm.eq_of_pairwise (fun _ _ _ _ hle hge => orderKey_injective (Int.le_antisymm hle hge))
    (pairwise_sortValid xs) hl ((perm_sortValid xs).trans h.symm)

theorem SameNumbers.sortValid_eq (h : SameNumbers xs ys) : sortValid xs = sortValid ys :=
  sortValid_eq_of_perm (pairwise_sortValid ys) ((perm_sortValid ys).trans h.symm)

/-! ### The median -/

/-- In a list in order, no more samples come before one in the total order than stand in front of
it, and no more come after it than stand behind it. -/
theorem countP_le_of_pairwise {front back : List Float}
    (h : (front ++ m :: back).Pairwise fun x y => orderKey x ≤ orderKey y) :
    (front ++ m :: back).countP (fun x => orderKey x < orderKey m) ≤ front.length ∧
      (front ++ m :: back).countP (fun x => orderKey m < orderKey x) ≤ back.length := by
  obtain ⟨-, hback, hfront⟩ := List.pairwise_append.1 h
  have hbehind : (m :: back).countP (fun x => orderKey x < orderKey m) = 0 := by
    refine List.countP_eq_zero.2 fun x hx => ?_
    rw [decide_eq_true_eq, Int.not_lt]
    rcases List.mem_cons.1 hx with rfl | hx
    · exact Int.le_refl _
    · exact (List.pairwise_cons.1 hback).1 x hx
  have hbefore : front.countP (fun x => orderKey m < orderKey x) = 0 := by
    refine List.countP_eq_zero.2 fun x hx => ?_
    rw [decide_eq_true_eq, Int.not_lt]
    exact hfront x hx m List.mem_cons_self
  constructor
  · rw [List.countP_append, hbehind, Nat.add_zero]
    exact List.countP_le_length
  · rw [List.countP_append, hbefore, Nat.zero_add,
      List.countP_cons_of_neg (by rw [decide_eq_true_eq]; exact Int.lt_irrefl _)]
    exact List.countP_le_length

/-- A number of a list has the rank of the median among the numbers of the list: no more than half
of them come before it in the total order, and no more than the others come after it. -/
structure IsMedian (xs : List Float) (m : Float) : Prop where
  /-- It is one of the numbers. -/
  mem : m ∈ valid xs
  /-- How many come before it. -/
  before_le : (valid xs).countP (fun x => orderKey x < orderKey m) ≤ (valid xs).length / 2
  /-- How many come after it. -/
  after_le : (valid xs).countP (fun x => orderKey m < orderKey x) ≤
    (valid xs).length - 1 - (valid xs).length / 2

theorem isMedian_medianOfValid (h : valid xs ≠ []) : IsMedian xs (medianOfValid xs) := by
  have hperm := perm_sortValid xs
  have hlength : (sortValid xs).length = (valid xs).length := hperm.length_eq
  have hpos : 0 < (valid xs).length := List.length_pos_iff.2 h
  have hmiddle : (valid xs).length / 2 < (sortValid xs).length := by omega
  have hmedian : medianOfValid xs = (sortValid xs)[(valid xs).length / 2] := by
    unfold medianOfValid
    dsimp only
    rw [hlength, List.getElem?_eq_getElem hmiddle]
    rfl
  have hsplit : sortValid xs = (sortValid xs).take ((valid xs).length / 2) ++
      medianOfValid xs :: (sortValid xs).drop ((valid xs).length / 2 + 1) := by
    rw [hmedian, ← List.drop_eq_getElem_cons hmiddle, List.take_append_drop]
  obtain ⟨hbefore, hafter⟩ := countP_le_of_pairwise (hsplit ▸ pairwise_sortValid xs)
  rw [← hsplit, hperm.countP_eq] at hbefore hafter
  rw [List.length_take] at hbefore
  rw [List.length_drop] at hafter
  refine ⟨hperm.mem_iff.1 (hmedian ▸ List.getElem_mem hmiddle), by omega, by omega⟩

theorem SameNumbers.medianOfValid_eq (h : SameNumbers xs ys) :
    medianOfValid xs = medianOfValid ys := by
  unfold medianOfValid
  rw [h.sortValid_eq]

/-! ### Extremes -/

/-- A function chooses from two numbers one of the smaller key, either of them when the keys are
equal. -/
structure Chooses (key : Float → Int) (f : Float → Float → Float) : Prop where
  /-- It gives a number. -/
  isNaN_eq : ∀ x y, x.isNaN = false → y.isNaN = false → (f x y).isNaN = false
  /-- The key of the number. -/
  key_eq : ∀ x y, x.isNaN = false → y.isNaN = false → key (f x y) = min (key x) (key y)

theorem chooses_lesser : Chooses numericKey lesser where
  isNaN_eq x y hx hy := by
    unfold lesser
    split
    · exact hy
    · exact hx
  key_eq x y _ _ := by
    unfold lesser
    split <;> omega

theorem chooses_larger : Chooses (-numericKey ·) larger where
  isNaN_eq x y hx hy := by
    unfold larger
    split
    · exact hy
    · exact hx
  key_eq x y _ _ := by
    unfold larger
    split <;> omega

/-- A number has the least key of the numbers of a list. -/
structure HasLeastKey (key : Float → Int) (l : List Float) (m : Float) : Prop where
  /-- It is a number. -/
  isNaN_eq : m.isNaN = false
  /-- It has the key of one of them. -/
  attained : ∃ x ∈ l, key m = key x
  /-- None has a smaller key. -/
  le : ∀ x ∈ l, key m ≤ key x

theorem hasLeastKey_singleton (key : Float → Int) (hx : x.isNaN = false) :
    HasLeastKey key [x] x where
  isNaN_eq := hx
  attained := ⟨x, List.mem_singleton_self x, rfl⟩
  le y hy := Int.le_of_eq (by rw [List.mem_singleton.1 hy])

/-- Numbers in another order have the same least key. -/
theorem HasLeastKey.unique {key : Float → Int} {l l' : List Float} {m' : Float}
    (h : HasLeastKey key l m) (h' : HasLeastKey key l' m') (hl : l.Perm l') : key m = key m' := by
  obtain ⟨x, hx, hm⟩ := h.attained
  obtain ⟨x', hx', hm'⟩ := h'.attained
  have hle := h.le x' (hl.mem_iff.2 hx')
  have hge := h'.le x (hl.mem_iff.1 hx)
  omega

section Chooses

variable {key : Float → Int} {f : Float → Float → Float}

/-- The least key is not lost when two of the numbers are replaced with the one chosen. -/
theorem Chooses.hasLeastKey (hf : Chooses key f) (hx : x.isNaN = false) (hy : y.isNaN = false)
    {l : List Float} (h : HasLeastKey key (f x y :: l) m) : HasLeastKey key (x :: y :: l) m := by
  have hkey := hf.key_eq x y hx hy
  obtain ⟨hchosen, hothers⟩ := List.forall_mem_cons.1 h.le
  refine ⟨h.isNaN_eq, ?_, ?_⟩
  · obtain ⟨z, hz, hm⟩ := h.attained
    rcases List.mem_cons.1 hz with rfl | hz
    · rcases Int.le_total (key x) (key y) with hle | hle
      · exact ⟨x, List.mem_cons_self, by omega⟩
      · exact ⟨y, List.mem_cons_of_mem _ List.mem_cons_self, by omega⟩
    · exact ⟨z, List.mem_cons_of_mem _ (List.mem_cons_of_mem _ hz), hm⟩
  · simp only [List.forall_mem_cons]
    exact ⟨by omega, by omega, hothers⟩

/-- Choosing from left to right. -/
theorem Chooses.foldl (hf : Chooses key f) {l : List Float} (hx : x.isNaN = false)
    (hl : ∀ y ∈ l, y.isNaN = false) : HasLeastKey key (x :: l) (l.foldl f x) := by
  induction l generalizing x with
  | nil => exact hasLeastKey_singleton key hx
  | cons y l ih =>
    obtain ⟨hy, hrest⟩ := List.forall_mem_cons.1 hl
    exact hf.hasLeastKey hx hy (ih (hf.isNaN_eq x y hx hy) hrest)

theorem Chooses.combineValid (hf : Chooses key f) (h : valid xs ≠ []) :
    HasLeastKey key (valid xs) (combineValid f xs) := by
  have hnumbers : ∀ x ∈ valid xs, x.isNaN = false := fun x => isNaN_of_mem_valid
  unfold MapAlgebra.combineValid
  cases hvalid : valid xs with
  | nil => exact absurd hvalid h
  | cons x rest =>
    rw [hvalid] at hnumbers
    obtain ⟨hx, hrest⟩ := List.forall_mem_cons.1 hnumbers
    exact hf.foldl hx hrest

/-- A function of two numbers as one of two samples: it passes over a sample that is no number. -/
def passing (f : Float → Float → Float) (x y : Float) : Float :=
  if x.isNaN then y else if y.isNaN then x else f x y

/-- Combining the numbers of a list may begin with what is no number. -/
theorem Chooses.combineValid_eq (hf : Chooses key f) (xs : List Float) :
    MapAlgebra.combineValid f xs = (valid xs).foldl (passing f) nan := by
  have hpass : ∀ (l : List Float) (x : Float), x.isNaN = false → (∀ y ∈ l, y.isNaN = false) →
      l.foldl f x = l.foldl (passing f) x := by
    intro l
    induction l with
    | nil => exact fun _ _ _ => rfl
    | cons y l ih =>
      intro x hx hl
      obtain ⟨hy, hrest⟩ := List.forall_mem_cons.1 hl
      have hstep : passing f x y = f x y := by
        rw [passing, hx, hy]
        rfl
      rw [List.foldl_cons, List.foldl_cons, hstep, ih _ (hf.isNaN_eq x y hx hy) hrest]
  have hnumbers : ∀ x ∈ valid xs, x.isNaN = false := fun x => isNaN_of_mem_valid
  unfold MapAlgebra.combineValid
  cases hvalid : valid xs with
  | nil => rfl
  | cons x rest =>
    rw [hvalid] at hnumbers
    obtain ⟨hx, hrest⟩ := List.forall_mem_cons.1 hnumbers
    have hfirst : passing f nan x = x := by
      rw [passing, isNaN_nan]
      rfl
    rw [List.foldl_cons, hfirst]
    exact hpass rest x hx hrest

end Chooses

/-- Two samples are numerically equal, or neither is a number. -/
def NumericallyEqual (x y : Float) : Prop :=
  (x == y) = true ∨ x.isNaN = true ∧ y.isNaN = true

/-- A sample is a least number of a list. -/
structure IsMinimum (xs : List Float) (m : Float) : Prop where
  /-- It is numerically equal to one of the numbers. -/
  attained : ∃ x ∈ valid xs, (m == x) = true
  /-- It is not greater than any. -/
  le : ∀ x ∈ valid xs, m ≤ x

/-- A sample is a greatest number of a list. -/
structure IsMaximum (xs : List Float) (m : Float) : Prop where
  /-- It is numerically equal to one of the numbers. -/
  attained : ∃ x ∈ valid xs, (m == x) = true
  /-- It is not smaller than any. -/
  le : ∀ x ∈ valid xs, x ≤ m

theorem HasLeastKey.isMinimum (h : HasLeastKey numericKey (valid xs) m) : IsMinimum xs m where
  attained := by
    obtain ⟨x, hx, hm⟩ := h.attained
    exact ⟨x, hx, (beq_iff h.isNaN_eq (isNaN_of_mem_valid hx)).2 hm⟩
  le x hx := (le_iff h.isNaN_eq (isNaN_of_mem_valid hx)).2 (h.le x hx)

theorem HasLeastKey.isMaximum (h : HasLeastKey (-numericKey ·) (valid xs) m) :
    IsMaximum xs m where
  attained := by
    obtain ⟨x, hx, hm⟩ := h.attained
    exact ⟨x, hx, (beq_iff h.isNaN_eq (isNaN_of_mem_valid hx)).2 (by omega)⟩
  le x hx := by
    have hkey := h.le x hx
    exact (le_iff (isNaN_of_mem_valid hx) h.isNaN_eq).2 (by omega)

/-! ### All order statistics -/

theorem isNaN_medianOfValid_iff : (medianOfValid xs).isNaN = true ↔ valid xs = [] := by
  refine isNaN_iff_valid_eq_nil (fun h => isNaN_of_mem_valid (isMedian_medianOfValid h).mem)
    fun h => ?_
  unfold medianOfValid
  rw [sortValid_eq_nil_iff.2 h]
  exact isNaN_nan

section Chooses

variable {key : Float → Int} {f : Float → Float → Float}

theorem Chooses.isNaN_combineValid_iff (hf : Chooses key f) :
    (MapAlgebra.combineValid f xs).isNaN = true ↔ valid xs = [] := by
  refine isNaN_iff_valid_eq_nil (fun h => (hf.combineValid h).isNaN_eq) fun h => ?_
  unfold MapAlgebra.combineValid
  rw [h]
  exact isNaN_nan

/-- The number chosen from lists of the same numbers has the same key, if there is one. -/
theorem SameNumbers.combineValid (h : SameNumbers xs ys) (hf : Chooses key f)
    (hkey : ∀ x y, key x = key y → numericKey x = numericKey y) :
    NumericallyEqual (MapAlgebra.combineValid f xs) (MapAlgebra.combineValid f ys) := by
  by_cases hxs : valid xs = []
  · exact Or.inr ⟨hf.isNaN_combineValid_iff.2 hxs,
      hf.isNaN_combineValid_iff.2 (h.valid_eq_nil_iff.1 hxs)⟩
  · have hleast := hf.combineValid hxs
    have hleast' := hf.combineValid (mt h.valid_eq_nil_iff.2 hxs)
    exact Or.inl ((beq_iff hleast.isNaN_eq hleast'.isNaN_eq).2 (hkey _ _ (hleast.unique hleast' h)))

end Chooses

/-- **Order statistics**: the median, the least and the greatest number of a list of samples are no
number exactly when no sample is one. Else the median has its rank in the total order, and the
extremes bound all numbers and are attained. They are found from left to right, beginning with what
is no number. Lists of the same numbers have the same median and numerically equal extremes. -/
theorem order_statistics (xs : List Float) :
    (∀ r ∈ [Reduction.median, .min, .max],
      (r.eval xs).isNaN = true ↔ (valid xs).length = 0) ∧
    (0 < (valid xs).length → IsMedian xs (Reduction.median.eval xs) ∧
      IsMinimum xs (Reduction.min.eval xs) ∧ IsMaximum xs (Reduction.max.eval xs)) ∧
    (Reduction.min.eval xs = (valid xs).foldl (passing lesser) nan ∧
      Reduction.max.eval xs = (valid xs).foldl (passing larger) nan) ∧
    ∀ ys, SameNumbers xs ys → Reduction.median.eval xs = Reduction.median.eval ys ∧
      NumericallyEqual (Reduction.min.eval xs) (Reduction.min.eval ys) ∧
      NumericallyEqual (Reduction.max.eval xs) (Reduction.max.eval ys) := by
  refine ⟨?_, fun hpos => ?_,
    ⟨chooses_lesser.combineValid_eq xs, chooses_larger.combineValid_eq xs⟩, fun ys h => ?_⟩
  · simp only [List.forall_mem_cons, List.length_eq_zero_iff]
    exact ⟨isNaN_medianOfValid_iff, chooses_lesser.isNaN_combineValid_iff,
      chooses_larger.isNaN_combineValid_iff, nofun⟩
  · have hvalid : valid xs ≠ [] := List.length_pos_iff.1 hpos
    exact ⟨isMedian_medianOfValid hvalid, (chooses_lesser.combineValid hvalid).isMinimum,
      (chooses_larger.combineValid hvalid).isMaximum⟩
  · exact ⟨h.medianOfValid_eq, h.combineValid chooses_lesser fun _ _ => id,
      h.combineValid chooses_larger fun _ _ => Int.neg_inj.1⟩

/-- A window that reaches over the edge of a grid has the order statistics of the samples inside,
though these come in another order and with the zero of the other sign first. -/
theorem order_statistics_edge :
    let window := [nan, 2.0, -0.0, 3.0, 0.0]
    let inside := [0.0, 3.0, -0.0, 2.0]
    0 < (valid window).length ∧ SameNumbers window inside ∧
      ¬ (Reduction.min.eval window).isNaN = true ∧ IsMedian window (Reduction.median.eval window) ∧
      Reduction.median.eval window = Reduction.median.eval inside ∧
      NumericallyEqual (Reduction.min.eval window) (Reduction.min.eval inside) := by
  intro window inside
  have hpos : 0 < (valid window).length := by decide +kernel
  have hperm : [2.0, -0.0, 3.0, 0.0].Perm inside := by decide +kernel
  have hsame : SameNumbers window inside :=
    (SameNumbers.insert [] [2.0, -0.0, 3.0, 0.0] isNaN_nan).symm.trans (.of_perm hperm)
  obtain ⟨hnumber, hranks, -, hagree⟩ := order_statistics window
  obtain ⟨hmedian, hmin, -⟩ := hagree inside hsame
  have hleast := hnumber .min (List.mem_cons_of_mem _ List.mem_cons_self)
  exact ⟨hpos, hsame, fun h => Nat.ne_of_gt hpos (hleast.1 h), (hranks hpos).1, hmedian, hmin⟩

end MapAlgebra
