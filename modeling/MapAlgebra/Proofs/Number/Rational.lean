import MapAlgebra.Raster.Transform
import Mathlib.Tactic.Ring

/-!
# Exact numbers

What is calculated with doubles when a program runs can be calculated with rational numbers as well,
and is exact then. This module makes rational numbers numbers to calculate with, and states the law
of georeferencing: **`Transform.center_shifted`**, the centres of the cells of a part of a grid are
those of the cells of the grid.
-/

namespace MapAlgebra

instance : Scalar ℚ := ⟨fun n => (n : ℚ)⟩

@[simp] theorem Scalar.ofNat_rat (n : Nat) : (ofNat n : ℚ) = n := rfl

namespace Transform

theorem locate_rat (t : Transform ℚ) (col row : ℚ) : t.locate col row =
    (t.originX + col * t.pixelWidth + row * t.rowRotation,
      t.originY + col * t.colRotation + row * t.pixelHeight) := rfl

/-- The exact map of a part of a grid gives a place the coordinates that it has in the grid. -/
theorem locate_shifted (t : Transform ℚ) (firstCol firstRow : Nat) (col row : ℚ) :
    (t.shifted firstCol firstRow).locate col row = t.locate (firstCol + col) (firstRow + row) := by
  have hshifted : t.shifted firstCol firstRow =
      ⟨t.originX + firstCol * t.pixelWidth + firstRow * t.rowRotation,
        t.originY + firstCol * t.colRotation + firstRow * t.pixelHeight,
        t.pixelWidth, t.pixelHeight, t.rowRotation, t.colRotation⟩ := rfl
  rw [hshifted, locate_rat, locate_rat, Prod.mk.injEq]
  constructor <;> ring

/-- **Exact georeferencing**: the centre of a cell of a part of a grid is that of the cell in the
grid, whatever rotation there is. -/
theorem center_shifted (t : Transform ℚ) (firstCol firstRow col row : Nat) :
    (t.shifted firstCol firstRow).center col row = t.center (firstCol + col) (firstRow + row) := by
  unfold center
  rw [locate_shifted]
  simp only [Scalar.ofNat_rat, Nat.cast_add, add_assoc]

end Transform

end MapAlgebra
