/-
Decimal numerals within bounds. Digits are taken from left to right, and each intermediate value
has to be within the bounds, so that a numeral of any length is refused as soon as it is too
large.
-/
import Backtrack.CharClass
import Backtrack.Text

namespace Backtrack

/-- The integers from a least to a greatest one. -/
structure Bounds where
  least : Int
  greatest : Int

namespace Bounds

/-- The integers of eight bits, without a sign. -/
def byte : Bounds := ⟨0, 255⟩

/-- The integers of sixty-four bits, with a sign. -/
def word : Bounds := ⟨-9223372036854775808, 9223372036854775807⟩

/-- An integer, if it is within the bounds. -/
def admit? (b : Bounds) (n : Int) : Option Int :=
  if b.least ≤ n ∧ n ≤ b.greatest then some n else none

theorem admit?_eq_some {b : Bounds} {n : Int} (h : b.least ≤ n) (h' : n ≤ b.greatest) :
    b.admit? n = some n :=
  if_pos ⟨h, h'⟩

theorem admit?_eq_none_of_lt {b : Bounds} {n : Int} (h : n < b.least) : b.admit? n = none :=
  if_neg fun hn => Int.not_le.2 h hn.1

/-- The integer after another; the least one follows the greatest. -/
def next (b : Bounds) (n : Int) : Int :=
  if n = b.greatest then b.least else n + 1

end Bounds

namespace Numeral

/-- The value of a digit. -/
def digitValue (c : Char) : Int := Int.ofNat (c.toNat - '0'.toNat)

/-! ## Reading a text of digits -/

/-- One more digit of a value that is built up below zero, where the bounds reach one further. -/
def extendDown? (b : Bounds) (value : Int) (c : Char) : Option Int := do
  let tens ← b.admit? (value * 10)
  b.admit? (tens - digitValue c)

/-- The value of a text of digits, which is negated if it has a minus sign. -/
def value? (b : Bounds) (negative : Bool) (digits : Text) : Option Int := do
  let down ← digits.foldlM (extendDown? b) 0
  if negative then return down else b.admit? (-down)

/-! ## Reading any text -/

/-- Why a text is no numeral within the bounds. -/
inductive Refusal where
  | empty | invalidDigit | tooLarge | tooSmall
deriving DecidableEq

def Refusal.message : Refusal → String
  | .empty => "cannot parse integer from empty string"
  | .invalidDigit => "invalid digit found in string"
  | .tooLarge => "number too large to fit in target type"
  | .tooSmall => "number too small to fit in target type"

/-- One more digit of a value that is built up away from zero. A character that is no digit is
refused before the size of the value is looked at. -/
def extend (b : Bounds) (negative : Bool) (value : Int) (c : Char) : Except Refusal Int :=
  if isDigit c then
    match b.admit? (if negative then value * 10 - digitValue c else value * 10 + digitValue c) with
    | some v => .ok v
    | none => .error (if negative then .tooSmall else .tooLarge)
  else .error .invalidDigit

/-- Reads a whole text as a numeral. It may have a plus sign, or a minus sign if the bounds go
below zero, but not a sign alone. -/
def read (b : Bounds) : Text → Except Refusal Int
  | [] => .error .empty
  | ['+'] => .error .invalidDigit
  | ['-'] => .error .invalidDigit
  | '+' :: digits => digits.foldlM (extend b false) 0
  | '-' :: digits =>
    if b.least < 0 then digits.foldlM (extend b true) 0 else .error .invalidDigit
  | digits => digits.foldlM (extend b false) 0

end Numeral

end Backtrack
