/-
Parsers that read a given text, one character, or the end.
-/
import Backtrack.Parser

namespace Backtrack.Parser

/-- Reads exactly this text. A mismatch is reported where the reading started, however many
characters agreed. -/
def literal (s : String) : Parser Text := fun c =>
  if s.toList.isPrefixOf c.remaining then .ok (s.toList, c.advance (Text.size s.toList))
  else .error (c.fail ("\"" ++ s ++ "\""))

/-- Reads one character of a class. -/
def char (keep : Char → Bool) (expected : String) : Parser Char := fun c =>
  match c.current with
  | some ch => if keep ch then .ok (ch, c.next) else .error (c.fail expected)
  | none => .error (c.fail expected)

/-- Succeeds where nothing remains. -/
def endOfInput : Parser Unit := fun c =>
  if c.atEnd then .ok ((), c) else .error (c.fail "end of input")

end Backtrack.Parser
