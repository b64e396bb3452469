/-
Walks: a cursor that is moved step by step, with a bookmark to go back to. Each step may leave a
note of what was seen.
-/
import Backtrack.Parser

namespace Backtrack

/-- A cursor on a walk, and the bookmarked one. -/
structure Walk where
  current : Cursor
  saved : Cursor

/-- A step of a walk. -/
inductive Move (α : Type) where
  /-- So many characters further on. -/
  | next (times : Nat)
  /-- To a position of the text; the walk stays where it is if there is no boundary. -/
  | goto (position : Nat)
  | configure (config : Config)
  /-- Set the bookmark. -/
  | save
  /-- Go back to the bookmark. -/
  | load
  /-- Compare with the bookmark. -/
  | same
  /-- Note the text and the position. -/
  | inner
  /-- Note what a failure here would say. -/
  | fail (expected : String)
  /-- Run a parser, and move if it succeeds. -/
  | parse (p : Parser α)

/-- What a step of a walk saw. -/
inductive Note (α : Type) where
  | nothing
  | same (b : Bool)
  | inner (source : Text) (position : Nat)
  | error (e : ParseError)
  | value (a : α)
  /-- The step did not return. -/
  | unfinished

namespace Walk

variable {α : Type}

/-- The walk that starts at the beginning of a text. -/
def start (source : Text) : Walk := ⟨Cursor.start source, Cursor.start source⟩

def step (w : Walk) : Move α → Note α × Walk
  | .next times => (.nothing, { w with current := w.current.nextN times })
  | .goto position =>
    match Cursor.startAt w.current.source position with
    | .ok c => (.nothing, { w with current := c })
    | .error e => (.error e, w)
    | .unfinished => (.unfinished, w)
  | .configure config => (.nothing, { w with current := w.current.withConfig config })
  | .save => (.nothing, { w with saved := w.current })
  | .load => (.nothing, { w with current := w.saved })
  | .same => (.same (w.current = w.saved), w)
  | .inner => (.inner w.current.source w.current.position, w)
  | .fail expected => (.error (w.current.fail expected), w)
  | .parse p =>
    match p w.current with
    | .ok (a, c) => (.value a, { w with current := c })
    | .error e => (.error e, w)
    | .unfinished => (.unfinished, w)

/-- The notes of a walk, each with the cursor after its step. -/
def take (w : Walk) : List (Move α) → List (Note α × Cursor)
  | [] => []
  | m :: ms =>
    let (note, w) := w.step m
    (note, w.current) :: w.take ms

end Walk

end Backtrack
