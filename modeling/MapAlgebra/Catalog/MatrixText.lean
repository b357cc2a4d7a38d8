import MapAlgebra.Decimal.Numeral
import MapAlgebra.Failure
import MapAlgebra.Text.Blank
import MapAlgebra.Text.Split

/-!
# Matrices as text

A matrix is declared as numbers in braces, elements of a row apart by commas and rows by semicolons.
Blanks may surround the braces and each number. Faults are reported at a byte of the text.
-/

namespace MapAlgebra.Catalog

open Text Decimal

/-- The values of a matrix and its shape. -/
structure MatrixText where
  /-- The number of rows. -/
  rows : Nat
  /-- The number of columns. -/
  cols : Nat
  /-- The values, row by row. -/
  values : List Float

namespace MatrixText

/-- The place of a fault of a matrix text, in bytes, and what is wrong there. -/
abbrev Fault := Nat × Malformed

/-- The numbers of a row, the first element starting at byte `offset`; an element that is no number
is reported where it starts. -/
def readRow (offset : Nat) : List (List Char) → Except Fault (List Float)
  | [] => .ok []
  | element :: rest =>
    match readSigned? (trim element) with
    | none => .error (offset, .notNumber)
    | some x => (readRow (offset + byteLength element + 1) rest).map (x :: ·)

/-- The numbers of all rows, the first row starting at byte `offset`. -/
def readRows (offset : Nat) : List (List Char) → Except Fault (List (List Float))
  | [] => .ok []
  | row :: rest =>
    match readRow offset (splitAll ',' row) with
    | .error e => .error e
    | .ok xs => (readRows (offset + byteLength row + 1) rest).map (xs :: ·)

/-- What stands between the braces of a matrix text whose first brace is at byte `lead`. -/
def inner (lead : Nat) (trimmed : List Char) : Except Fault (List Char) :=
  match trimmed with
  | '{' :: rest =>
    match dropEnding? ['}'] rest with
    | some inside => if (trim inside).isEmpty then .error (lead + 1, .emptyMatrix) else .ok inside
    | none => .error (lead + byteLength trimmed, .noClosing)
  | _ => .error (lead, .noOpening)

/-- The rows of numbers of a matrix text. -/
def rowsOf (cs : List Char) : Except Fault (List (List Float)) :=
  let lead := byteLength (cs.takeWhile isBlank)
  match inner lead (trim cs) with
  | .error e => .error e
  | .ok inside => readRows (lead + 1) (splitAll ';' inside)

/-- Read the text of a matrix, whose rows must have one length. -/
def parse (text : String) : Except Failure MatrixText :=
  match rowsOf text.toList with
  | .error (position, reason) => .error (.malformed text position reason)
  | .ok rows =>
    let cols := (rows.headD []).length
    match rows.find? (·.length ≠ cols) with
    | some row => .error (.dimensionality text .matrix (.elementsPerRow cols) (.row row.length))
    | none => .ok ⟨rows.length, cols, rows.flatten⟩

end MatrixText

end MapAlgebra.Catalog
