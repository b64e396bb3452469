/-
Values that a grammar yields. Parsers written in Lean have values of any type; a grammar given
as data yields values of this one.
-/
import Backtrack.Cursor

namespace Backtrack

inductive Value where
  | unit
  | bool (b : Bool)
  | text (t : Text)
  | int (n : Int)
  /-- An optional match that found nothing. -/
  | none
  /-- An optional match. -/
  | some (v : Value)
  | pair (a b : Value)
  | list (vs : List Value)
  | tagged (tag : String) (v : Value)
  /-- An error that the body of a scope went on from. -/
  | caught (e : ParseError)
  /-- Where a scope stood. -/
  | state (position : Nat) (remaining : Text) (atEnd : Bool)
  /-- What becomes of a value of a kind that a mapping does not cover. -/
  | undefined

namespace Value

def ofOption : Option Value → Value
  | Option.some v => .some v
  | Option.none => .none

def ofPair : Value × Value → Value
  | (a, b) => .pair a b

def isEmptyText : Value → Bool
  | .text t => t.isEmpty
  | _ => false

/-- Where a cursor stands. -/
def ofCursor (c : Cursor) : Value := .state c.position c.remaining c.atEnd

end Value

end Backtrack
