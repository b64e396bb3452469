/-
Why a run ends without a value. Only a failure can be recovered from; the other errors are
faults of the grammar or of its use and end the whole run.
-/
import Backtrack.Failure

namespace Backtrack

inductive ParseError where
  /-- The text is not what the grammar asks for. -/
  | failure (f : Failure)
  /-- A run was to start at a position that is no character boundary of its text. -/
  | invalidStart (start length : Nat)
  /-- An iteration of a repetition succeeded without moving. -/
  | noProgress (position : Nat)
  /-- The grammar gave up, for a reason of its own. -/
  | aborted (reason : String)
deriving DecidableEq

namespace ParseError

/-- Whether a choice or a repetition around the error may go on. -/
def isRecoverable : ParseError → Bool
  | .failure _ => true
  | _ => false

/-- The error of an iteration that stood still. -/
def IsIdle (error : ParseError) : Prop := ∃ p, error = .noProgress p

def message : ParseError → String
  | .failure f => f.message
  | .invalidStart start length =>
    "start offset " ++ toString start ++ " is not a character boundary of the "
      ++ toString length ++ "-byte input"
  | .noProgress position =>
    "[Offset " ++ toString position ++ "]: repetition succeeded without consuming input"
  | .aborted reason => "parse aborted: " ++ reason

/-- The text of the error behind this one. -/
def cause : ParseError → Option String
  | .aborted reason => some reason
  | _ => none

end ParseError

end Backtrack
