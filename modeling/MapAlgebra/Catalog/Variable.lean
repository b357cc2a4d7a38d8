import MapAlgebra.Raster.Basic
import MapAlgebra.Value.Error

/-!
# Variables

What a variable of a formula stands for. Most change from cell to cell: the samples of an input at
the cell or around it, the coordinates of the cell, its column and row. Statistics of a whole band,
declared constants and declared matrices do not.
-/

namespace MapAlgebra

/-- A window of a band of an input. -/
structure WindowKey where
  /-- The input, from zero on. -/
  image : Nat
  /-- The band, from zero on. -/
  band : Nat
  /-- The window. -/
  window : Window
  deriving DecidableEq

/-- What a variable stands for; inputs and bands count from zero. -/
inductive Kind where
  /-- All samples of an input at the cell, as a row. -/
  | pixel (image bands : Nat)
  /-- The sample of a band at the cell. -/
  | band (image band : Nat)
  /-- The samples of a band around the cell, as a matrix. -/
  | window (key : WindowKey)
  /-- The first coordinate of the centre of the cell. -/
  | physicalX (image : Nat)
  /-- The second coordinate of the centre of the cell. -/
  | physicalY (image : Nat)
  /-- The column of the cell. -/
  | indexX
  /-- The row of the cell. -/
  | indexY
  /-- A statistic of a whole band. -/
  | statistic (image band : Nat) (s : Statistic)
  /-- A declared number. -/
  | constant (x : Float)
  /-- A declared matrix. -/
  | matrix (m : Matrix)

namespace Kind

/-- Whether the value changes from cell to cell. -/
def isPositional : Kind → Bool
  | .statistic .. | .constant _ | .matrix _ => false
  | _ => true

/-- The shape of the values. -/
def shape : Kind → Shape
  | .pixel _ bands => ⟨1, bands⟩
  | .window key => ⟨key.window.height, key.window.width⟩
  | .matrix m => m.shape
  | _ => .single

/-- Whether the values are scalars. -/
def isScalar : Kind → Bool
  | .pixel .. | .window _ | .matrix _ => false
  | _ => true

/-- A value of the right shape to try a formula on: the value itself if it is declared, else
zeros. -/
def placeholder : Kind → Value
  | .constant x => .scalar x
  | .matrix m => .matrix m
  | k => .zeros k.shape k.isScalar

theorem shape_placeholder (k : Kind) : k.placeholder.shape = k.shape := by
  cases k <;> rfl

theorem isScalar_placeholder (k : Kind) : k.placeholder.isScalar = k.isScalar := by
  cases k <;> rfl

end Kind

/-- A variable: the name it is listed under, and what it stands for. -/
structure Variable where
  /-- The name it is listed under. -/
  name : String
  /-- What it stands for. -/
  kind : Kind

end MapAlgebra
