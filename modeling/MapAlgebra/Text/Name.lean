/-!
# Names

Names are words of letters of the basic alphabet, digits and underscores that do not start with a
digit.
-/

namespace MapAlgebra.Text

/-- Whether a character is a letter of the basic alphabet. -/
def isLetter (c : Char) : Bool := ('a' ≤ c && c ≤ 'z') || ('A' ≤ c && c ≤ 'Z')

/-- Whether a name can start with a character. -/
def startsName (c : Char) : Bool := isLetter c || c = '_'

/-- Whether a name can go on with a character. -/
def continuesName (c : Char) : Bool := startsName c || ('0' ≤ c && c ≤ '9')

/-- Whether a text is a name. -/
def isName (name : String) : Bool :=
  match name.toList with
  | [] => false
  | c :: cs => startsName c && cs.all continuesName

end MapAlgebra.Text
