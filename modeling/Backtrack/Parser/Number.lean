/-
Signed numerals of sixty-four bits in a text, such as 42 or -7.
-/
import Backtrack.Numeral
import Backtrack.Parser.Choice
import Backtrack.Parser.Primitive
import Backtrack.Parser.Span

namespace Backtrack.Parser

/-- Reads an optional minus sign and digits. A value of more than sixty-four bits is a failure at
the digits, and a choice around it may go on. -/
def number : Parser Int := fun c => do
  let (sign, atDigits) ← optional (literal "-") c
  let (digits, next) ← alt [takeWhile1 isDigit] (some "digit") atDigits
  match Numeral.value? .word sign.isSome digits with
  | some n => return (n, next)
  | none => .error (atDigits.fail "integer within i64 range")

end Backtrack.Parser
