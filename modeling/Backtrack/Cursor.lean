/-
A cursor is a place in a text from which a parser reads, with the settings that hold there. A
parser takes a cursor and gives back another; who keeps the old one can go back to it.

A cursor is valid if it stands at a character boundary. Main statements: a valid cursor splits
its text into what it has passed and what remains (`IsValid.exists_split`), and it stays valid
when it passes the front of what remains (`IsValid.advance`).
-/
import Backtrack.Config
import Backtrack.Outcome

namespace Backtrack

structure Cursor where
  source : Text
  /-- The number of bytes before the cursor. -/
  position : Nat
  config : Config
deriving DecidableEq

namespace Cursor

/-- The cursor at the start of a text. -/
def start (source : Text) : Cursor := ⟨source, 0, .default⟩

/-- The cursor at a position of a text, which has to be a character boundary. -/
def startAt (source : Text) (position : Nat) : Outcome Cursor :=
  if source.IsBoundary position then .ok ⟨source, position, .default⟩
  else .error (.invalidStart position source.size)

def withConfig (c : Cursor) (config : Config) : Cursor := { c with config := config }

def location (c : Cursor) : Location := ⟨c.source, c.position⟩

/-- The text that is still to be read. -/
def remaining (c : Cursor) : Text := c.location.remaining

/-- The character at the cursor, unless the text ends there. -/
def current (c : Cursor) : Option Char := c.remaining.head?

/-- The cursor a number of bytes further on. -/
def advance (c : Cursor) (bytes : Nat) : Cursor := { c with position := c.position + bytes }

/-- The cursor behind the current character; at the end of the text it stays. -/
def next (c : Cursor) : Cursor :=
  match c.current with
  | some ch => c.advance ch.utf8Size
  | none => c

/-- The cursor after a number of single steps. -/
def nextN : Nat → Cursor → Cursor
  | 0, c => c
  | n + 1, c => nextN n c.next

def atEnd (c : Cursor) : Bool := c.source.size ≤ c.position

/-- The failure of one expectation at the cursor. -/
def failure (c : Cursor) (expected : String) : Failure where
  location := c.location
  expected := expected
  kind := .atomic
  snippetLimit := c.config.snippetLimit

/-- The same as an error. -/
def fail (c : Cursor) (expected : String) : ParseError := .failure (c.failure expected)

/-! ## Valid cursors -/

/-- The cursor stands at a character boundary of its text. -/
def IsValid (c : Cursor) : Prop := c.source.IsBoundary c.position

instance (c : Cursor) : Decidable c.IsValid :=
  inferInstanceAs (Decidable (c.source.IsBoundary c.position))

theorem remaining_of_split {c : Cursor} {s r : Text} (hs : c.source = s ++ r)
    (hp : s.size = c.position) : c.remaining = r := by
  simp [remaining, location, Location.remaining, hs, ← hp]

theorem IsValid.exists_split {c : Cursor} (h : c.IsValid) :
    ∃ s, c.source = s ++ c.remaining ∧ s.size = c.position := by
  obtain ⟨s, r, hs, hp⟩ := h
  exact ⟨s, by rw [remaining_of_split hs hp, ← hs], hp⟩

theorem IsValid.atEnd_iff {c : Cursor} (h : c.IsValid) : c.atEnd = true ↔ c.remaining = [] := by
  obtain ⟨s, hs, hp⟩ := h.exists_split
  -- what is passed and what remains make up the text
  have size := congrArg Text.size hs
  rw [Text.size_append, hp] at size
  rw [atEnd, decide_eq_true_iff, size, ← Text.size_eq_zero_iff]
  omega

theorem IsValid.advance {c : Cursor} (h : c.IsValid) {t r : Text} (ht : c.remaining = t ++ r) :
    (c.advance t.size).IsValid ∧ (c.advance t.size).remaining = r := by
  obtain ⟨s, hs, hp⟩ := h.exists_split
  -- the text that is passed goes over to the front
  have hs' : (c.advance t.size).source = (s ++ t) ++ r := by
    rw [List.append_assoc, ← ht]; exact hs
  have hp' : Text.size (s ++ t) = (c.advance t.size).position := by
    rw [Text.size_append, hp]; rfl
  exact ⟨⟨s ++ t, r, hs', hp'⟩, remaining_of_split hs' hp'⟩

theorem startAt_eq_ok_iff {t : Text} {p : Nat} {c : Cursor} :
    startAt t p = .ok c ↔ t.IsBoundary p ∧ c = ⟨t, p, .default⟩ := by
  rw [startAt]
  split
  · next h => simp [h, eq_comm]
  · next h => simp [h]

end Cursor

end Backtrack
