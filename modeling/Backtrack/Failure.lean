/-
Failures that a parser can recover from, and how they read: a message of one line with the text
that was found, and a report of several lines with the lines around the place.
-/
import Backtrack.Location

namespace Backtrack

inductive FailureKind where
  /-- One expectation was not met. -/
  | atomic
  /-- Every alternative of a choice failed. -/
  | aggregate
deriving DecidableEq

/-- Where a parser failed and what it would have accepted there. The expectation may be empty. -/
structure Failure where
  location : Location
  expected : String
  kind : FailureKind
  /-- How many characters of the remaining text the message shows. -/
  snippetLimit : Option Nat
deriving DecidableEq

namespace Failure

def position (f : Failure) : Nat := f.location.position

def remaining (f : Failure) : Text := f.location.remaining

/-- The remaining text as the message shows it. Where it has more characters than the limit allows, it
is cut in front of the first of them that is too many, and an ellipsis follows. -/
def snippet (f : Failure) : Text :=
  match f.snippetLimit with
  | none => f.remaining
  | some limit =>
    match f.remaining.charStart? limit with
    | some cut => (f.remaining.before? cut).getD [] ++ ['.', '.', '.']
    | none => f.remaining

/-- The failure in one line. -/
def message (f : Failure) : String :=
  "[Offset " ++ toString f.position ++ "]: Expected " ++ f.expected ++ "; Input: \""
    ++ String.ofList f.snippet ++ "\""

/-- What the report says was expected. -/
def wanted (f : Failure) : String :=
  if f.expected = "" then "something else" else f.expected

/-- The failure with the lines around it. -/
def report (f : Failure) : String :=
  "Expected " ++ f.wanted ++ " at line " ++ toString f.location.place.line ++ ", byte offset "
    ++ toString f.location.place.offset ++ " (absolute position: " ++ toString f.position
    ++ ")\n\n" ++ String.join (f.location.contextLines.map (· ++ "\n"))

end Failure

end Backtrack
