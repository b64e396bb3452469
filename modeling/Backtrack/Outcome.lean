/-
What a computation comes to: a value, an error, or nothing at all, because it does not return
within its budget. Outcomes form a monad in which the first error, or the first computation that
does not return, is the outcome of the whole.
-/
import Backtrack.ParseError

namespace Backtrack

inductive Outcome (α : Type) where
  | ok (value : α)
  | error (e : ParseError)
  /-- The computation did not return. -/
  | unfinished
deriving DecidableEq

namespace Outcome

protected def bind {α β : Type} : Outcome α → (α → Outcome β) → Outcome β
  | .ok a, k => k a
  | .error e, _ => .error e
  | .unfinished, _ => .unfinished

instance : Monad Outcome where
  pure := .ok
  bind := Outcome.bind

@[simp] theorem pure_eq {α : Type} (a : α) : (pure a : Outcome α) = .ok a := rfl

@[simp] theorem ok_bind {α β : Type} (a : α) (k : α → Outcome β) : (Outcome.ok a >>= k) = k a := rfl

@[simp] theorem error_bind {α β : Type} (e : ParseError) (k : α → Outcome β) :
    (Outcome.error e >>= k) = .error e := rfl

@[simp] theorem unfinished_bind {α β : Type} (k : α → Outcome β) :
    (Outcome.unfinished >>= k) = .unfinished := rfl

@[simp] theorem map_ok {α β : Type} (f : α → β) (a : α) : f <$> Outcome.ok a = .ok (f a) := rfl

@[simp] theorem map_error {α β : Type} (f : α → β) (e : ParseError) :
    f <$> (Outcome.error e : Outcome α) = .error e := rfl

@[simp] theorem map_unfinished {α β : Type} (f : α → β) :
    f <$> (Outcome.unfinished : Outcome α) = .unfinished := rfl

theorem bind_eq_ok_iff {α β : Type} {x : Outcome α} {k : α → Outcome β} {b : β} :
    (x >>= k) = .ok b ↔ ∃ a, x = .ok a ∧ k a = .ok b := by
  cases x <;> simp

instance : LawfulMonad Outcome :=
  LawfulMonad.mk' Outcome (fun x => by cases x <;> rfl) (fun _ _ => rfl)
    (fun x _ _ => by cases x <;> rfl)

end Outcome

end Backtrack
