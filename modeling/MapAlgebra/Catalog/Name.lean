import MapAlgebra.Catalog.Variable
import MapAlgebra.Decimal.Numeral
import MapAlgebra.Text.Split

/-!
# Names of variables

Every input has a root: `im1`, `im2`, … for the inputs in order, and an alias if it was given one.
The names of its variables are the root and an ending: none for all samples of a cell, `b1`, `b2`, …
for its bands, `PhyX` and `PhyY` for coordinates, `b1Mini` and so on for statistics, and `b1N3x5`
for a window of three columns and five rows. Bands count from one in names.
-/

namespace MapAlgebra.Catalog

open Text Decimal

/-! ### Writing names -/

/-- The root of an input by its place in the order of inputs. -/
def positionalRoot (image : Nat) : String := s!"im{image + 1}"

/-- The ending of the variables of a band. -/
def bandEnding (band : Nat) : String := s!"b{band + 1}"

/-- The ending of a window of a band. -/
def windowEnding (band : Nat) (w : Window) : String :=
  bandEnding band ++ s!"N{w.width}x{w.height}"

/-- The name a window is listed under. -/
def windowName (key : WindowKey) : String :=
  positionalRoot key.image ++ windowEnding key.band key.window

/-- The endings of the variables of an input that are always there, windows being made on demand. -/
def endings (image bands : Nat) : List (String × Kind) :=
  ("", .pixel image bands) ::
    ((List.range bands).map fun band => (bandEnding band, .band image band)) ++
    [("PhyX", .physicalX image), ("PhyY", .physicalY image)] ++
    (List.range bands).flatMap fun band =>
      Statistic.all.map fun s => (bandEnding band ++ s.suffix, .statistic image band s)

/-- Whether a name starts like the positional root of an input. -/
def isPositionalName (name : String) : Bool :=
  match name.toList with
  | 'i' :: 'm' :: c :: _ => isDigit c
  | _ => false

/-! ### Taking names apart -/

/-- The number that a list of digits spells, if it is below `2^64`. -/
def readSize? (cs : List Char) : Option Nat :=
  if cs.isEmpty || !cs.all isDigit || UInt64.size ≤ natOfDigits cs then none
  else some (natOfDigits cs)

/-- A root and a band number, from one on. -/
structure BandName where
  /-- The root. -/
  root : String
  /-- The number of the band. -/
  band : Nat

/-- A root, a band number and the sides of a window. -/
structure WindowName where
  /-- The root. -/
  root : String
  /-- The number of the band. -/
  band : Nat
  /-- The number of columns. -/
  width : Nat
  /-- The number of rows. -/
  height : Nat

/-- Take apart a root and the ending of a band. -/
def readBand? (cs : List Char) : Option BandName := do
  let (root, digits) ← splitLast? 'b' cs
  return ⟨String.ofList root, ← readSize? digits⟩

/-- Take apart a root and the ending of a window. -/
def readWindow? (name : String) : Option WindowName := do
  let (stem, sides) ← splitLast? 'N' name.toList
  let (width, height) ← splitFirst? 'x' sides
  let ⟨root, band⟩ ← readBand? stem
  return ⟨root, band, ← readSize? width, ← readSize? height⟩

/-- Take apart a root and the ending of a band or of one of its statistics. -/
def readStatistic? (name : String) : Option BandName :=
  let cs := name.toList
  readBand? ((Statistic.all.findSome? fun s => dropEnding? s.suffix.toList cs).getD cs)

end MapAlgebra.Catalog
