/-
What a grammar can do to a value: mappings, which always give a value, and conversions, which
may refuse one with a reason.
-/
import Backtrack.Numeral
import Backtrack.Value

namespace Backtrack

/-- A change of values that cannot be refused. -/
inductive Mapping where
  /-- The bytes of a text, or the elements of a list. -/
  | length
  /-- The letters of ASCII in upper case. -/
  | upper
  | unit
  | tag (name : String)
  /-- The next integer of sixty-four bits. -/
  | succ
  /-- The value of a match, or an integer where there is none. -/
  | unwrapOr (n : Int)
  | isSome
  /-- An element of a list, or of a pair: the first at zero, otherwise the second. -/
  | nth (i : Nat)
deriving DecidableEq

def Mapping.apply : Mapping → Value → Value
  | .length, .text t => .int t.size
  | .length, .list vs => .int vs.length
  | .upper, .text t => .text (t.map Char.toUpper)
  | .unit, _ => .unit
  | .tag name, v => .tagged name v
  | .succ, .int n => .int (Bounds.word.next n)
  | .unwrapOr _, .some v => v
  | .unwrapOr n, .none => .int n
  | .isSome, .some _ => .bool true
  | .isSome, .none => .bool false
  | .nth i, .list vs => (vs[i]?).getD .undefined
  | .nth 0, .pair a _ => a
  | .nth _, .pair _ b => b
  | _, _ => .undefined

/-- A change of values that may be refused. -/
inductive Conversion where
  /-- The integer that a text denotes in decimal, within bounds. -/
  | numeral (bounds : Bounds)
  /-- Refuses every value. -/
  | reject (reason : String)
  /-- Accepts every value. -/
  | accept
  /-- Accepts texts of at most so many bytes. -/
  | maxBytes (limit : Nat)

def Conversion.apply : Conversion → Value → Except String Value
  | .numeral bounds, .text t =>
    match Numeral.read bounds t with
    | .ok n => .ok (.int n)
    | .error refusal => .error refusal.message
  | .reject reason, _ => .error reason
  | .accept, v => .ok v
  | .maxBytes limit, .text t =>
    if t.size ≤ limit then .ok (.text t) else .error (toString t.size ++ " bytes is too long")
  | _, _ => .ok .undefined

end Backtrack
