/-
Scopes: parsers written as a body of steps. A scope holds a cursor, which a parser that the body
runs moves if it succeeds and leaves alone if it does not, and the values that the body has put
aside. An error ends the body, unless the body catches it; either way the scope stays as the
steps before the error left it.
-/
import Backtrack.Parser.Choice
import Backtrack.Value

namespace Backtrack

structure Scope where
  cursor : Cursor
  /-- The values put aside so far, in order. -/
  pushed : List Value

/-- The scope of a body that starts at a cursor. -/
def Scope.enter (c : Cursor) : Scope := ⟨c, []⟩

/-- What a body does: an outcome, and the scope as the body left it, whatever the outcome. -/
def Body (α : Type) := Scope → Outcome α × Scope

namespace Body

variable {α β : Type}

protected def pure (a : α) : Body α := fun s => (.ok a, s)

protected def bind (b : Body α) (k : α → Body β) : Body β := fun s =>
  match b s with
  | (.ok a, s) => k a s
  | (.error e, s) => (.error e, s)
  | (.unfinished, s) => (.unfinished, s)

instance : Monad Body where
  pure := Body.pure
  bind := Body.bind

theorem bind_apply (b : Body α) (k : α → Body β) (s : Scope) :
    (b >>= k) s =
      match b s with
      | (.ok a, s) => k a s
      | (.error e, s) => (.error e, s)
      | (.unfinished, s) => (.unfinished, s) := rfl

theorem bind_eq_ok_iff {b : Body α} {k : α → Body β} {s t : Scope} {v : β} :
    (b >>= k) s = (.ok v, t) ↔ ∃ a u, b s = (.ok a, u) ∧ k a u = (.ok v, t) := by
  rw [bind_apply]
  obtain ⟨x, u⟩ := b s
  cases x with
  | ok a =>
    constructor
    · intro h
      exact ⟨a, u, rfl, h⟩
    · rintro ⟨_, _, ⟨⟩, h⟩
      exact h
  | _ => simp

/-- Runs a parser from the scope's cursor, and moves the cursor if the parser succeeds. -/
def run (p : Parser α) : Body α := fun s =>
  match p s.cursor with
  | .ok (a, c) => (.ok a, { s with cursor := c })
  | .error e => (.error e, s)
  | .unfinished => (.unfinished, s)

/-- Runs a parser from the scope's cursor, which stays. -/
def peek (p : Parser α) : Body α := fun s => ((p s.cursor).bind fun r => .ok r.1, s)

/-- The scope's cursor. -/
def cursor : Body Cursor := fun s => (.ok s.cursor, s)

/-- Puts a value aside. -/
def push (v : Value) : Body Unit := fun s => (.ok (), { s with pushed := s.pushed ++ [v] })

/-- Ends the body with an error. -/
def raise (e : ParseError) : Body α := fun s => (.error e, s)

/-- Ends the body with a failure at the scope's cursor. -/
def fail (expected : String) : Body α := fun s => (.error (s.cursor.fail expected), s)

/-- The body with its error caught. -/
def catching (b : Body α) : Body (Except ParseError α) := fun s =>
  match b s with
  | (.ok a, s) => (.ok (.ok a), s)
  | (.error e, s) => (.ok (.error e), s)
  | (.unfinished, s) => (.unfinished, s)

/-- Repeats a body as long as a test before each turn finds something. The budget is the largest
number of turns. -/
def whileSome : Nat → Body (Option α) → Body Unit → Body Unit
  | 0, _, _ => fun s => (.unfinished, s)
  | budget + 1, test, body => do
    match ← test with
    | some _ =>
      body
      whileSome budget test body
    | none => return ()

/-- Bodies in turn on one cursor, each with nothing put aside before it. An error in one does not
keep the next from running. Gives what each came to, and the cursor at the end. -/
def inTurn : List (Body Unit) → Cursor → List (Outcome Unit × Scope) × Cursor
  | [], c => ([], c)
  | b :: bs, c =>
    let r := b (Scope.enter c)
    let (rs, last) := inTurn bs r.2.cursor
    (r :: rs, last)

end Body

/-- The parser that runs a body in a scope of its own and ends where the scope ends. -/
def Parser.ofBody {α : Type} (body : Body α) : Parser α := fun c =>
  match body (Scope.enter c) with
  | (.ok a, s) => .ok (a, s.cursor)
  | (.error e, _) => .error e
  | (.unfinished, _) => .unfinished

namespace Parser

variable {α β : Type}

/-- What a body does behind a run, a body of its own does from where the run has ended. -/
theorem ofBody_run_bind (p : Parser α) (k : α → Body β) (c : Cursor) :
    ofBody (Body.run p >>= k) c = p c >>= fun r => ofBody (k r.1) r.2 := by
  unfold ofBody
  rw [Body.bind_apply]
  unfold Body.run Scope.enter
  cases p c <;> rfl

theorem ofBody_bind_pure (b : Body α) (f : α → β) :
    ofBody (b >>= fun a => pure (f a)) = (ofBody b).map f := by
  funext c
  unfold Parser.map
  rcases h : b (.enter c) with ⟨_ | _ | _, t⟩ <;> simp only [ofBody, Body.bind_apply, h] <;> rfl

end Parser

end Backtrack
