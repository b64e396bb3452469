/-
A location is a text with a byte position in it, where a failure points. The position need not
be one at which the text can be cut: past the end or inside a character nothing remains, and the
location counts as the end of the text.
-/
import Backtrack.Text.Lines

namespace Backtrack

/-- A byte position in a text. -/
structure Location where
  source : Text
  position : Nat
deriving DecidableEq

/-- A line, counted from one, and a byte offset in it, counted from zero. -/
structure Place where
  line : Nat
  offset : Nat
deriving DecidableEq

/-- A line of an excerpt: a line of the text with its number, or the pointer below it. -/
inductive ExcerptLine where
  | source (marked : Bool) (number : Nat) (content : Text)
  | pointer (indent : Nat)
deriving DecidableEq

namespace Location

/-- The text from the location on; nothing where the text cannot be cut. -/
def remaining (l : Location) : Text :=
  (l.source.after? l.position).getD []

/-- The text up to the location; all of it where the text cannot be cut. -/
def preceding (l : Location) : Text :=
  (l.source.before? l.position).getD l.source

/-- The line of the location and its byte offset in that line. A column would depend on how the
text is displayed, an offset in bytes does not. -/
def place (l : Location) : Place where
  line := l.preceding.count '\n' + 1
  offset := l.preceding.size - l.preceding.lastLineStart

end Location

namespace ExcerptLine

/-- What stands in front of a line of the text; the line of the location is marked. -/
def margin (marked : Bool) (number : Nat) : String :=
  (if marked then "  > " else "    ") ++ toString number ++ " | "

def render : ExcerptLine → String
  | .source marked number content => margin marked number ++ String.ofList content
  | .pointer indent => String.ofList (List.replicate indent ' ') ++ "^--- here"

end ExcerptLine

namespace Location

/-- What an excerpt around a place has of a line that it shows: the line with its number and, if it is
the line of the place, a pointer below the place. -/
def excerptOf (here : Place) (content : Text) (number : Nat) : List ExcerptLine :=
  let marked := number == here.line
  .source marked number content ::
    if marked then [.pointer (Text.size (ExcerptLine.margin marked number).toList + here.offset)]
    else []

/-- What an excerpt around a place has of numbered lines: it skips them up to the first one that it
shows, and stops behind the last one. -/
def excerptFrom (here : Place) (first last : Nat) : List (Text × Nat) → List ExcerptLine
  | [] => []
  | (content, number) :: rest =>
    if number < first then excerptFrom here first last rest
    else if last < number then []
    else excerptOf here content number ++ excerptFrom here first last rest

/-- The lines around the location, at most two before and two after its own. -/
def excerpt (l : Location) : List ExcerptLine :=
  excerptFrom l.place (max 1 (l.place.line - 2)) (l.place.line + 2) (l.source.lines.zipIdx 1)

/-- The excerpt as it is shown. -/
def contextLines (l : Location) : List String :=
  l.excerpt.map ExcerptLine.render

end Location

end Backtrack
