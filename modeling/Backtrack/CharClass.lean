/-
Classes of characters. The digits, spaces and letters here are those of ASCII, and a space is
blank, tab, vertical tab, carriage return or line feed: a form feed is none.
-/
namespace Backtrack

/-- The decimal digits. -/
def isDigit (c : Char) : Bool := c.isDigit

/-- The characters that separate words. -/
def isSpace (c : Char) : Bool := c ∈ [' ', '\t', '\x0b', '\r', '\n']

/-- A class of characters by description. -/
inductive CharClass where
  | digit | space | alpha | upper | lower | ascii | any | none
  /-- The characters that occur in a text. -/
  | oneOf (members : List Char)
  /-- The characters from one to another, in the order of their code points. -/
  | range (first last : Char)
  | not (cls : CharClass)
  | union (classes : List CharClass)

namespace CharClass

mutual

/-- Whether a character belongs to the class. -/
def holds : CharClass → Char → Bool
  | .digit, c => isDigit c
  | .space, c => isSpace c
  | .alpha, c => c.isAlpha
  | .upper, c => c.isUpper
  | .lower, c => c.isLower
  | .ascii, c => c.toNat < 128
  | .any, _ => true
  | .none, _ => false
  | .oneOf members, c => members.contains c
  | .range first last, c => first ≤ c && c ≤ last
  | .not cls, c => !holds cls c
  | .union classes, c => anyHolds classes c

/-- Whether a character belongs to one of the classes. -/
def anyHolds : List CharClass → Char → Bool
  | [], _ => false
  | cls :: classes, c => holds cls c || anyHolds classes c

end

end CharClass

end Backtrack
