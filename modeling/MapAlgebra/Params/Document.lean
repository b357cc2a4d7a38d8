/-!
# Documents

Structured data as a settings file holds it: records of named fields, lists, texts, numbers, truth
values and nothing.
-/

namespace MapAlgebra

/-- A piece of structured data. -/
inductive Document where
  /-- Nothing. -/
  | null
  /-- A truth value. -/
  | flag (b : Bool)
  /-- A whole number. -/
  | whole (n : Int)
  /-- Any other number. -/
  | fraction (x : Float)
  /-- A text. -/
  | text (s : String)
  /-- A list. -/
  | list (items : List Document)
  /-- Named fields. -/
  | record (fields : List (String × Document))
  deriving Inhabited

namespace Document

/-- The fields of a record. -/
def fields? : Document → Option (List (String × Document))
  | .record fields => some fields
  | _ => none

/-- The size a number states: whole, not negative and below `2^64`. -/
def size? : Document → Option Nat
  | .whole (.ofNat n) => if n < UInt64.size then some n else none
  | _ => none

/-- The name of a choice without content: a text, or a record of one field that holds nothing. -/
def choice? : Document → Option String
  | .text s => some s
  | .record [(s, .null)] => some s
  | _ => none

end Document

end MapAlgebra
