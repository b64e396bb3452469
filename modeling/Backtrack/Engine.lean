/-
Engines: a parser with the settings it runs under. An engine keeps nothing between runs, so one
serves any number of texts; a session of runs remembers where the last success ended.
-/
import Backtrack.Parser

namespace Backtrack

structure Engine (α : Type) where
  parser : Parser α
  config : Config

/-- Where a run of a session starts. -/
inductive Start where
  | beginning
  | offset (position : Nat)
  /-- Where the last successful run of the session ended, or at the beginning. -/
  | resumed

/-- A run of a session. -/
structure Run where
  source : Text
  start : Start

def Start.position (last : Nat) : Start → Nat
  | .beginning => 0
  | .offset position => position
  | .resumed => last

namespace Engine

variable {α : Type}

/-- An engine with the default settings. -/
def ofParser (p : Parser α) : Engine α := ⟨p, .default⟩

/-- Runs the parser from a position of a text. The cursor that it gives back need not be at the
end. -/
def parseAt (e : Engine α) (source : Text) (position : Nat) : Outcome (α × Cursor) := do
  let c ← Cursor.startAt source position
  e.parser (c.withConfig e.config)

/-- From a boundary of the text the parser runs under the engine's settings. -/
theorem parseAt_of_boundary (e : Engine α) {t : Text} {p : Nat} (hp : t.IsBoundary p) :
    e.parseAt t p = e.parser ⟨t, p, e.config⟩ := by
  have hs : Cursor.startAt t p = .ok ⟨t, p, .default⟩ := Cursor.startAt_eq_ok_iff.2 ⟨hp, rfl⟩
  rw [parseAt, hs]
  rfl

/-- Runs the parser from the beginning of a text. -/
def parse (e : Engine α) (source : Text) : Outcome (α × Cursor) := e.parseAt source 0

/-- Runs of a session that has last succeeded up to a position. -/
def runFrom (e : Engine α) : Nat → List Run → List (Outcome (α × Cursor))
  | _, [] => []
  | last, r :: rs =>
    match e.parseAt r.source (r.start.position last) with
    | .ok (a, c) => .ok (a, c) :: e.runFrom c.position rs
    | outcome => outcome :: e.runFrom last rs

/-- The runs of a session. -/
def session (e : Engine α) (runs : List Run) : List (Outcome (α × Cursor)) := e.runFrom 0 runs

end Engine

end Backtrack
