/-
Repetition: a parser again and again, each time from where the last one ended, until it fails.
What the failed attempt read is given back. An iteration that succeeds where it started would
repeat for ever; the settings at its start decide whether it is an error or the end.

A parser may go back in the text, so a repetition need not end at all. Its budget is the largest
number of times that the parser is called.
-/
import Backtrack.Parser

namespace Backtrack

/-- What a repetition collected, where it ended, and the failure that ended it, unless an idle
iteration did. -/
structure Repetition (α : Type) where
  values : List α
  cursor : Cursor
  failure : Option Failure

namespace Parser

variable {α : Type}

/-- Calls a parser until it fails or stands still. -/
def iterate : Nat → Parser α → Cursor → Outcome (Repetition α)
  | 0, _, _ => .unfinished
  | budget + 1, p, c =>
    match p c with
    | .ok (value, next) =>
      if next.position = c.position then
        match c.config.idle with
        | .fail => .error (.noProgress c.position)
        | .stop => .ok ⟨[], c, none⟩
      else do
        let rest ← iterate budget p next
        return { rest with values := value :: rest.values }
    | .error (.failure f) => .ok ⟨[], c, some f⟩
    | .error e => .error e
    | .unfinished => .unfinished

section

variable {p : Parser α} {c d : Cursor} {a : α}

theorem iterate_succ_failure (budget : Nat) {f : Failure} (h : p c = .error (.failure f)) :
    iterate (budget + 1) p c = .ok ⟨[], c, some f⟩ := by
  simp [iterate, h]

theorem iterate_succ_fatal (budget : Nat) {e : ParseError} (h : p c = .error e)
    (he : e.isRecoverable = false) : iterate (budget + 1) p c = .error e := by
  cases e with
  | failure f => cases he
  | _ => simp [iterate, h]

theorem iterate_succ_unfinished (budget : Nat) (h : p c = .unfinished) :
    iterate (budget + 1) p c = .unfinished := by
  simp [iterate, h]

theorem iterate_succ_moved (budget : Nat) (h : p c = .ok (a, d)) (hd : d.position ≠ c.position) :
    iterate (budget + 1) p c =
      iterate budget p d >>= fun r => .ok { r with values := a :: r.values } := by
  simp [iterate, h, hd]

theorem iterate_succ_idle_fail (budget : Nat) (h : p c = .ok (a, d)) (hd : d.position = c.position)
    (hc : c.config.idle = .fail) : iterate (budget + 1) p c = .error (.noProgress c.position) := by
  simp [iterate, h, hd, hc]

theorem iterate_succ_idle_stop (budget : Nat) (h : p c = .ok (a, d)) (hd : d.position = c.position)
    (hc : c.config.idle = .stop) : iterate (budget + 1) p c = .ok ⟨[], c, none⟩ := by
  simp [iterate, h, hd, hc]

end

/-- Zero matches or more. -/
def many (budget : Nat) (p : Parser α) : Parser (List α) := fun c => do
  let r ← iterate budget p c
  return (r.values, r.cursor)

/-- One match or more. Without any, the failure that ended the repetition is that of the whole;
there is none if an idle iteration ended it. -/
def many1 (budget : Nat) (p : Parser α) : Parser (List α) := fun c => do
  let r ← iterate budget p c
  if r.values.isEmpty then .error (.failure (r.failure.getD (c.failure "")))
  else return (r.values, r.cursor)

end Parser

end Backtrack
