import MapAlgebra.Pass.Diagnostics
import Mathlib.Algebra.BigOperators.Group.List.Basic

/-!
# Adding up diagnostics

Counts can be added up in any order and in any groups.
-/

namespace MapAlgebra.Diagnostics

@[ext]
theorem ext {a b : Diagnostics} (hunderflow : a.underflow = b.underflow)
    (hoverflow : a.overflow = b.overflow) (herrors : a.runtimeErrors = b.runtimeErrors)
    (hnan : a.nanToInteger = b.nanToInteger) : a = b := by
  cases a
  cases b
  cases hunderflow
  cases hoverflow
  cases herrors
  cases hnan
  rfl

instance : Zero Diagnostics := ⟨none⟩

instance : AddCommMonoid Diagnostics where
  add_assoc a b c := by ext <;> exact Nat.add_assoc _ _ _
  zero_add a := by ext <;> exact Nat.zero_add _
  add_zero a := by ext <;> exact Nat.add_zero _
  add_comm a b := by ext <;> exact Nat.add_comm _ _
  nsmul := nsmulRec

theorem sum_eq (ds : List Diagnostics) : sum ds = ds.sum := by
  rw [List.sum_eq_foldl]
  rfl

theorem sum_concat (ds : List Diagnostics) (d : Diagnostics) : sum (ds ++ [d]) = sum ds + d := by
  unfold sum
  rw [List.foldl_append]
  rfl

@[simp] theorem sum_cons (d : Diagnostics) (ds : List Diagnostics) :
    sum (d :: ds) = d + sum ds := by
  simp [sum_eq]

@[simp] theorem sum_append (ds es : List Diagnostics) : sum (ds ++ es) = sum ds + sum es := by
  rw [sum_eq, sum_eq, sum_eq, List.sum_append]

/-- The order in which counts are added up does not matter. -/
theorem sum_perm {ds es : List Diagnostics} (h : ds.Perm es) : sum ds = sum es := by
  rw [sum_eq, sum_eq, h.sum_eq]

/-- Counts can be added up list by list. -/
theorem sum_flatMap {α : Type} (f : α → List Diagnostics) (xs : List α) :
    sum (xs.flatMap f) = sum (xs.map fun x => sum (f x)) := by
  induction xs with
  | nil => rfl
  | cons x xs ih => simp [ih]

/-- No errors are counted in all if none are counted each time. -/
theorem runtimeErrors_sum {ds : List Diagnostics} (h : ∀ d ∈ ds, d.runtimeErrors = 0) :
    (sum ds).runtimeErrors = 0 := by
  induction ds with
  | nil => rfl
  | cons d ds ih =>
    obtain ⟨hd, hds⟩ := List.forall_mem_cons.1 h
    rw [sum_cons]
    show d.runtimeErrors + (sum ds).runtimeErrors = 0
    rw [hd, ih hds]

/-- Clamping a sample is no error. -/
theorem runtimeErrors_clamp (t : PixelType) (x : Float) : (t.clamp x).2.runtimeErrors = 0 := by
  unfold PixelType.clamp
  dsimp only
  split
  · split <;> rfl
  · split
    · rfl
    · split <;> rfl

end MapAlgebra.Diagnostics
