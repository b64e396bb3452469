/-
A parser is a function from a cursor to a value and the cursor behind what it read. Any such
function is one. Nothing that a failed parser did can be seen: its caller still has the cursor
it started from.
-/
import Backtrack.Cursor

namespace Backtrack

abbrev Parser (α : Type) := Cursor → Outcome (α × Cursor)

namespace Parser

variable {α β : Type}

/-! ## Without reading -/

/-- Gives a value and stays where it is. -/
def succeed (a : α) : Parser α := fun c => .ok (a, c)

/-- Never succeeds; the expectation is that nothing meets. -/
def fail (expected : String) : Parser α := fun c => .error (c.fail expected)

/-- Ends the run with an error, whatever the text. -/
def raise (e : ParseError) : Parser α := fun _ => .error e

/-- Fails at a position of the text that need not be the cursor's, without the cursor's settings. -/
def failAt (position : Nat) (expected : String) (kind : FailureKind) (limit : Option Nat) :
    Parser α :=
  fun c => .error (.failure ⟨⟨c.source, position⟩, expected, kind, limit⟩)

/-- Changes the settings for what follows. -/
def configure (config : Config) : Parser Unit := fun c => .ok ((), c.withConfig config)

/-- Goes to a position of the text, forwards or backwards; the settings are the default ones again. -/
def jump (position : Nat) : Parser Unit := fun c => do
  return ((), ← Cursor.startAt c.source position)

/-! ## Values -/

/-- Changes the value. -/
def map (p : Parser α) (f : α → β) : Parser β := fun c => do
  let (a, c) ← p c
  return (f a, c)

section

variable {p : Parser α} {c d : Cursor}

theorem map_eq_ok_iff {f : α → β} {v : β} :
    p.map f c = .ok (v, d) ↔ ∃ a, p c = .ok (a, d) ∧ f a = v := by
  unfold Parser.map
  rw [Outcome.bind_eq_ok_iff]
  constructor
  · rintro ⟨r, hp, ⟨⟩⟩
    exact ⟨r.1, hp, rfl⟩
  · rintro ⟨a, hp, rfl⟩
    exact ⟨(a, d), hp, rfl⟩

theorem map_eq_error_iff {f : α → β} {e : ParseError} :
    p.map f c = .error e ↔ p c = .error e := by
  unfold Parser.map
  cases p c <;> simp

theorem map_eq_unfinished_iff {f : α → β} : p.map f c = .unfinished ↔ p c = .unfinished := by
  unfold Parser.map
  cases p c <;> simp

end

/-- Changes the value, or ends the run where there is none to change it to: a refused value is
not a failure of the text, so no alternative is tried. -/
def convert (p : Parser α) (f : α → Except String β) : Parser β := fun c => do
  let (a, c) ← p c
  match f a with
  | .ok b => return (b, c)
  | .error reason => .error (.aborted reason)

/-! ## Sequence -/

/-- One parser after the other. -/
def and (p : Parser α) (q : Parser β) : Parser (α × β) := fun c => do
  let (a, c) ← p c
  let (b, c) ← q c
  return ((a, b), c)

end Parser

end Backtrack
