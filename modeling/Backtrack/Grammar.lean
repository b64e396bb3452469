/-
Grammars as data: what can be read, and the steps of the bodies in it. A reference stands for a
rule of its name, so rules may refer to each other and to themselves.
-/
import Backtrack.Mapping

namespace Backtrack

mutual

/-- A grammar. -/
inductive Grammar where
  /-- A given text. -/
  | literal (s : String)
  /-- The longest span of characters that satisfy a predicate. -/
  | takeWhile (keep : Char → Bool)
  /-- A span that is not empty. -/
  | nonEmpty (g : Grammar)
  /-- One character that satisfies a predicate. -/
  | char (keep : Char → Bool) (expected : String)
  | endOfInput
  | number
  /-- A value without reading anything. -/
  | succeed (s : String)
  | fail (expected : String)
  /-- A failure at a given position of the text. -/
  | failAt (position : Nat) (expected : String) (kind : FailureKind) (limit : Option Nat)
  /-- The end of the whole run. -/
  | abort (reason : String)
  /-- Other settings for what follows. -/
  | configure (config : Config)
  /-- A move to a given position of the text. -/
  | jump (position : Nat)
  | and (a b : Grammar)
  | map (g : Grammar) (f : Mapping)
  | convert (g : Grammar) (f : Conversion)
  | many (g : Grammar)
  | many1 (g : Grammar)
  | choice (gs : List Grammar) (message : Option String)
  | alt (gs : List Grammar) (message : Option String)
  /-- A body of steps. Its value is the list of what the steps pushed, or one element of it. -/
  | block (steps : List Step) (result : Option Nat)
  /-- The rule of this name. -/
  | ref (name : String)

/-- A step of the body of a scope. -/
inductive Step where
  /-- Run a grammar and push its value. -/
  | run (g : Grammar)
  /-- Run a grammar and drop its value. -/
  | skip (g : Grammar)
  /-- Run a grammar and push its value or its error. -/
  | attempt (g : Grammar)
  /-- Push the value of a grammar without moving. -/
  | peek (g : Grammar)
  /-- Push where the scope stands. -/
  | state
  | fail (expected : String)
  /-- Fail unless the scope is at the end of the text. -/
  | requireEnd (expected : String)
  | abort (reason : String)
  /-- Run a grammar if it matches; push its value and go on with some steps, or with others if
  it does not match. -/
  | ifMatch (g : Grammar) (yes no : List Step)
  /-- Run steps again and again, each time after a match of a grammar. -/
  | whileMatch (g : Grammar) (steps : List Step)

end

namespace Grammar

/-- The longest span of characters that do not satisfy a predicate. -/
def takeTill (stop : Char → Bool) : Grammar := takeWhile fun ch => !stop ch

/-- A match or none. -/
def optional (g : Grammar) : Grammar := choice [g] none

/-- Any spaces. -/
def spaces : Grammar := map (takeWhile isSpace) .unit

/-- A sequence of grammars after a first one, whose value pairs up from the left. -/
def sequence (first : Grammar) (others : List Grammar) : Grammar := others.foldl and first

end Grammar

/-- The grammar of each rule name. -/
abbrev Rules := String → Option Grammar

end Backtrack
