/-!
# Cutting texts

A text cut at every occurrence of a character, at the first one, or at the last one.
-/

namespace MapAlgebra.Text

/-- Put an item before the first of some lists. -/
def consHead {α : Type} (a : α) : List (List α) → List (List α)
  | [] => [[a]]
  | xs :: rest => (a :: xs) :: rest

/-- The pieces of a text between the occurrences of `sep`. -/
def splitAll (sep : Char) : List Char → List (List Char)
  | [] => [[]]
  | c :: cs => if c = sep then [] :: splitAll sep cs else consHead c (splitAll sep cs)

/-- What comes before and after the first occurrence of `sep`. -/
def splitFirst? (sep : Char) : List Char → Option (List Char × List Char)
  | [] => none
  | c :: cs =>
    if c = sep then some ([], cs) else (splitFirst? sep cs).map fun (a, b) => (c :: a, b)

/-- What comes before and after the last occurrence of `sep`. -/
def splitLast? (sep : Char) : List Char → Option (List Char × List Char)
  | [] => none
  | c :: cs =>
    match splitLast? sep cs with
    | some (a, b) => some (c :: a, b)
    | none => if c = sep then some ([], cs) else none

/-- What comes before `ending` at the end of a text. -/
def dropEnding? (ending cs : List Char) : Option (List Char) :=
  if ending.isSuffixOf cs then some (cs.take (cs.length - ending.length)) else none

/-- The number of bytes a text takes in UTF-8. -/
def byteLength (cs : List Char) : Nat :=
  cs.foldl (fun n c => n + c.utf8Size) 0

end MapAlgebra.Text
