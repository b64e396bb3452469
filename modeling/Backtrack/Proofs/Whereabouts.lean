/-
A run that is told no position answers from within what it was given to read. Main statement: it
ends at or behind the place where it started, and so does every failure and every repetition that
stands still, each at a boundary of the run's own text; no start within the run is invalid
(`outcome_within`). That a failure points to a boundary says that it shows what remains there.

The cursor that a combinator fails at is one of those that it was handed or that it got back, so
the statement about errors rests on an invariant of cursors.
-/
import Backtrack.Proofs.Invariant

namespace Backtrack

/-- A position of a text, at or behind another one, where the text can be cut. -/
structure Text.Within (t : Text) (start p : Nat) : Prop where
  boundary : t.IsBoundary p
  start_le : start ≤ p
  le_size : p ≤ t.size

/-- The cursor reads a given text, and from a position on. -/
structure Cursor.Within (t : Text) (start : Nat) (c : Cursor) : Prop where
  source : c.source = t
  position : t.Within start c.position

theorem Cursor.Within.isValid {t : Text} {start : Nat} {c : Cursor} (h : c.Within t start) :
    c.IsValid := by
  unfold Cursor.IsValid
  rw [h.source]
  exact h.position.boundary

theorem Cursor.IsValid.within {c : Cursor} (h : c.IsValid) : c.Within c.source c.position :=
  ⟨rfl, h, Nat.le_refl _, h.le_size⟩

theorem Cursor.Within.advance {t s r : Text} {start : Nat} {c : Cursor} (h : c.Within t start)
    (hr : c.remaining = s ++ r) : (c.advance s.size).Within t start := by
  have hb : t.IsBoundary (c.advance s.size).position := by
    rw [← h.source]
    exact (h.isValid.advance hr).1
  have hle : c.position ≤ (c.advance s.size).position := Nat.le_add_right _ _
  exact ⟨h.source, hb, Nat.le_trans h.position.start_le hle, hb.le_size⟩

/-- The failure points into a given text, at or behind a position, and shows what remains there. -/
structure Failure.Within (t : Text) (start : Nat) (f : Failure) : Prop where
  source : f.location.source = t
  position : t.Within start f.position
  remaining : t.after? f.position = some f.remaining

theorem Cursor.Within.failure {t : Text} {start : Nat} {c : Cursor} (h : c.Within t start)
    (expected : String) (kind : FailureKind) (limit : Option Nat) :
    Failure.Within t start ⟨c.location, expected, kind, limit⟩ := by
  obtain ⟨s, hs, hp⟩ := h.isValid.exists_split
  refine ⟨h.source, h.position, ?_⟩
  rw [← h.source]
  exact Text.after?_eq_some_iff.2 ⟨s, hs, hp⟩

/-- The errors of a run that starts at a position of a text and is told no other: an invalid start
is none of them. -/
def ParseError.Within (t : Text) (start : Nat) : ParseError → Prop
  | .failure f => f.Within t start
  | .noProgress p => t.Within start p
  | .invalidStart .. => False
  | .aborted _ => True

/-- A run stays in its text, and does not go back behind its start. -/
def Invariant.within (t : Text) (start : Nat) : Invariant where
  cursor := Cursor.Within t start
  error := ParseError.Within t start
  node := Grammar.isRelative
  step _ := true
  advance := Cursor.Within.advance
  configure _ hc := ⟨hc.source, hc.position⟩
  jump h := by cases h
  failure hc expected kind := hc.failure expected kind _
  noProgress hc := hc.position
  aborted _ := trivial
  invalidStart h := by cases h
  failAt h := by cases h

/-- A run that is told no position ends at or behind its start, or with an error that is located
there. -/
theorem outcome_within {rules : Rules} {g : Grammar}
    (hr : rules.All Grammar.isRelative fun _ => true)
    (hg : g.all Grammar.isRelative (fun _ => true) = true) {c : Cursor} (hc : c.IsValid) (n : Nat) :
    (∀ v d, (meaning rules n).parser g c = .ok (v, d) → d.Within c.source c.position) ∧
    (∀ f, (meaning rules n).parser g c = .error (.failure f) →
      f.Within c.source c.position) ∧
    (∀ p, (meaning rules n).parser g c = .error (.noProgress p) →
      c.source.Within c.position p) ∧
    ∀ start length, (meaning rules n).parser g c ≠ .error (.invalidStart start length) := by
  have hwithin : (Invariant.within c.source c.position).cursor c := hc.within
  have herror {e} (h : (meaning rules n).parser g c = .error e) :
      e.Within c.source c.position := Invariant.of_error hr hg hwithin h
  refine ⟨fun v d h => ?_, fun f h => herror h, fun p h => herror h, fun start length h => ?_⟩
  · exact Invariant.next hr hg hwithin h
  · exact herror h

/-- An amount that may be wrong, and amounts that may not. -/
def amounts : Grammar := .block [.attempt (.ref "amount"), .run (.many1 (.ref "amount"))] none

/-- The digits that are missing are missed behind the sign, at the end of what was read. -/
theorem outcome_within_amounts :
    Rules.All Grammar.isRelative (fun _ => true) (fun _ => some .number) ∧
      amounts.all Grammar.isRelative (fun _ => true) = true ∧
      Cursor.IsValid ⟨"é5-x".toList, 2, .default⟩ ∧
      ∃ f, (meaning (fun _ => some .number) 9).parser amounts ⟨"é5-x".toList, 2, .default⟩ =
          .error (.failure f) ∧
        f.position = 4 ∧ Failure.Within "é5-x".toList 2 f := by
  have hr : Rules.All Grammar.isRelative (fun _ => true) (fun _ => some .number) := by
    intro name g h
    cases h
    rfl
  have hg : amounts.all Grammar.isRelative (fun _ => true) = true := rfl
  have hc : Cursor.IsValid ⟨"é5-x".toList, 2, .default⟩ := by decide
  obtain ⟨-, hfailure, -, -⟩ := outcome_within hr hg hc 9
  obtain ⟨f, hrun, hp⟩ : ∃ f, (meaning (fun _ => some .number) 9).parser amounts
    ⟨"é5-x".toList, 2, .default⟩ = .error (.failure f) ∧ f.position = 4 := ⟨_, rfl, rfl⟩
  exact ⟨hr, hg, hc, f, hrun, hp, hfailure f hrun⟩

end Backtrack
