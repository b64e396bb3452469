/-
Ordered choice. The candidates are tried in turn, each from the same cursor, and the first that
matches decides; an error that is no failure ends the run at once. A message that describes the
whole choice counts as an entry of its own. When a choice with two entries or more misses, its
failure names all that was expected. A choice with fewer entries may miss: `choice` then has no
value, while `alt` fails as its candidate did.
-/
import Backtrack.Parser

namespace Backtrack

/-- What trying the candidates of a choice came to. -/
inductive Attempts (α : Type) where
  | matched (value : α) (next : Cursor)
  /-- All failed, and these are the failures in order. -/
  | missed (failures : List Failure)

/-- Words joined by "or". -/
def joinOr : List String → String
  | [] => ""
  | [w] => w
  | w :: ws => w ++ " or " ++ joinOr ws

namespace Parser

variable {α : Type}

/-- Tries the candidates in order from one cursor. -/
def attempts : List (Parser α) → Cursor → Outcome (Attempts α)
  | [], _ => .ok (.missed [])
  | p :: ps, c =>
    match p c with
    | .ok (value, next) => .ok (.matched value next)
    | .error (.failure f) => do
      match ← attempts ps c with
      | .matched value next => return .matched value next
      | .missed failures => return .missed (f :: failures)
    | .error e => .error e
    | .unfinished => .unfinished

section

variable {p : Parser α} {ps : List (Parser α)} {c : Cursor}

theorem attempts_cons_ok {a : α} {d : Cursor} (h : p c = .ok (a, d)) :
    attempts (p :: ps) c = .ok (.matched a d) := by
  simp [attempts, h]

theorem attempts_cons_failure {f : Failure} (h : p c = .error (.failure f)) :
    attempts (p :: ps) c = attempts ps c >>= fun
      | .matched value next => .ok (.matched value next)
      | .missed failures => .ok (.missed (f :: failures)) := by
  rw [attempts, h]; rfl

theorem attempts_cons_fatal {e : ParseError} (h : p c = .error e) (he : e.isRecoverable = false) :
    attempts (p :: ps) c = .error e := by
  cases e with
  | failure f => cases he
  | _ => simp [attempts, h]

theorem attempts_cons_unfinished (h : p c = .unfinished) :
    attempts (p :: ps) c = .unfinished := by
  simp [attempts, h]

/-- What matched is one of the candidates, and it was run from the start of the choice. -/
theorem exists_of_attempts_matched {a : α} {d : Cursor} : ∀ {ps : List (Parser α)},
    attempts ps c = .ok (.matched a d) → ∃ p ∈ ps, p c = .ok (a, d)
  | p :: ps, h => by
    cases hp : p c with
    | ok r =>
      rw [attempts_cons_ok hp] at h
      cases h
      exact ⟨p, List.mem_cons_self, hp⟩
    | error e =>
      cases e with
      | failure f =>
        rw [attempts_cons_failure hp, Outcome.bind_eq_ok_iff] at h
        obtain ⟨x, hx, h⟩ := h
        cases x with
        | matched b e =>
          cases h
          -- the failure in front is no match, so it is one of the others
          obtain ⟨q, hq, hqc⟩ := exists_of_attempts_matched hx
          exact ⟨q, List.mem_cons_of_mem _ hq, hqc⟩
        | missed fs => cases h
      | _ =>
        rw [attempts_cons_fatal hp rfl] at h
        cases h
    | unfinished =>
      rw [attempts_cons_unfinished hp] at h
      cases h

end

/-- What a choice that missed expected: what its candidates did, and its own message. -/
def expectation (message : Option String) (failures : List Failure) : String :=
  match message, (failures.map Failure.expected).filter (· ≠ "") with
  | some m, [] => m
  | none, [] => "something else"
  | some m, es => m ++ " (missing " ++ joinOr es ++ ")"
  | none, es => joinOr es

/-- The failure of a choice that missed. -/
def missed (message : Option String) (failures : List Failure) (c : Cursor) : Failure :=
  { c.failure (expectation message failures) with kind := .aggregate }

/-- The number of entries of a choice: its candidates, and its message if it has one. -/
def entries (message : Option String) (candidates : Nat) : Nat :=
  candidates + (if message.isSome then 1 else 0)

/-- The first match, if there is one; with two entries or more there has to be. -/
def choice (ps : List (Parser α)) (message : Option String) : Parser (Option α) := fun c => do
  match ← attempts ps c with
  | .matched value next => return (some value, next)
  | .missed failures =>
    if 1 < entries message failures.length then .error (.failure (missed message failures c))
    else return (none, c)

/-- The first match. -/
def alt (ps : List (Parser α)) (message : Option String) : Parser α := fun c => do
  match ← attempts ps c with
  | .matched value next => return (value, next)
  | .missed failures =>
    if 1 < entries message failures.length then .error (.failure (missed message failures c))
    else
      match failures with
      | f :: _ => .error (.failure f)
      | [] => .error (c.fail (message.getD "something else"))

/-- A match, or none. -/
def optional (p : Parser α) : Parser (Option α) := choice [p] none

end Parser

end Backtrack
