import MapAlgebra.Number.Single

/-!
# Pixel types

The types of number a raster can hold. A cell is kept as the sample it widens to; storing a sample
rounds it to the nearest number of the type, whole types cutting the fraction off and turning what
is no number into zero.
-/

namespace MapAlgebra

open Number

/-- The types of number a raster can hold. -/
inductive PixelType where
  /-- Whole numbers of eight bits. -/
  | u8
  /-- Whole numbers of eight bits with a sign. -/
  | i8
  /-- Whole numbers of sixteen bits. -/
  | u16
  /-- Whole numbers of sixteen bits with a sign. -/
  | i16
  /-- Whole numbers of thirty-two bits. -/
  | u32
  /-- Whole numbers of thirty-two bits with a sign. -/
  | i32
  /-- Numbers of single precision. -/
  | f32
  /-- Numbers of double precision. -/
  | f64
  deriving DecidableEq, Repr

namespace PixelType

/-- All pixel types. -/
def all : List PixelType := [.u8, .i8, .u16, .i16, .u32, .i32, .f32, .f64]

/-- The name of a pixel type. -/
def name : PixelType → String
  | .u8 => "u8"
  | .i8 => "i8"
  | .u16 => "u16"
  | .i16 => "i16"
  | .u32 => "u32"
  | .i32 => "i32"
  | .f32 => "f32"
  | .f64 => "f64"

/-- The pixel type of a name. -/
def ofName? (name : String) : Option PixelType :=
  all.find? (·.name == name)

/-- The least and the greatest number of a whole type. -/
def wholeRange? : PixelType → Option (Int × Int)
  | .u8 => some (0, 255)
  | .i8 => some (-128, 127)
  | .u16 => some (0, 65535)
  | .i16 => some (-32768, 32767)
  | .u32 => some (0, 4294967295)
  | .i32 => some (-2147483648, 2147483647)
  | .f32 | .f64 => none

/-- Whether a type can hold what is no number. -/
def isFloat : PixelType → Bool
  | .f32 | .f64 => true
  | _ => false

/-- The greatest finite number of a type with fractions. -/
def greatestFinite : PixelType → Float
  | .f32 => Float.ofBits 0x47efffffe0000000
  | _ => Float.ofBits 0x7fefffffffffffff

/-- The least and the greatest finite sample of a type. -/
def range (t : PixelType) : Float × Float :=
  match t.wholeRange? with
  | some (low, high) => (Float.ofInt low, Float.ofInt high)
  | none => (-t.greatestFinite, t.greatestFinite)

/-- The sample that remains of `x` in a cell of the type. -/
def store (t : PixelType) (x : Float) : Float :=
  match t.wholeRange? with
  | some (low, high) => Float.ofInt (truncateInto low high x)
  | none => if t = .f32 then single x else x

/-- Two samples closer than this count as equal when one of them marks missing data. -/
def tolerance : PixelType → Float
  | .f32 => Float.ofBits 0x3ee9000000000000
  | _ => Float.ofBits 0x3d19000000000000

/-- Whether a stored sample is missing, where `noData?` is the sample that marks missing data. A
type with fractions takes what is no number for missing, and compares within a tolerance. -/
def isMissing (t : PixelType) (noData? : Option Float) (x : Float) : Bool :=
  if t.isFloat then
    x.isNaN || noData?.any fun mark =>
      (if t = .f32 then single (x - mark) else x - mark).abs < t.tolerance
  else noData?.any (x == ·)

end PixelType

end MapAlgebra
