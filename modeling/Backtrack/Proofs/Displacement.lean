/-
A run depends on what remains and not on what has been passed. Main statement: a grammar that goes
to no absolute position comes to the same from a boundary inside a text as from the beginning of
the text behind that boundary, with every position moved by the same number of bytes
(`parseAt_displaced`). The two runs are kept together by the simulation in which one cursor is the
other with more text in front.
-/
import Backtrack.Engine
import Backtrack.Proofs.Simulation.Run

namespace Backtrack

/-! ## Positions that differ by an offset -/

/-- Failures that say the same about the same remaining text, a number of bytes further on. -/
structure Failure.Displaced (offset : Nat) (f g : Failure) : Prop where
  position : f.position = offset + g.position
  expected : f.expected = g.expected
  kind : f.kind = g.kind
  snippetLimit : f.snippetLimit = g.snippetLimit
  remaining : f.remaining = g.remaining

/-- Errors of one kind that differ at most in their positions, by a number of bytes. A run that is
not told where to go never meets an invalid start, so none is related. -/
inductive ParseError.Displaced (offset : Nat) : ParseError → ParseError → Prop
  | failure {f g : Failure} : f.Displaced offset g → Displaced offset (.failure f) (.failure g)
  | noProgress (p : Nat) : Displaced offset (.noProgress (offset + p)) (.noProgress p)
  | aborted (reason : String) : Displaced offset (.aborted reason) (.aborted reason)

/-- Values that differ at most in their positions, by a number of bytes. -/
abbrev Value.Displaced (offset : Nat) : Value → Value → Prop :=
  Value.Alike (fun p q => p = offset + q) (ParseError.Displaced offset)

/-- What a run gave, displaced: its value, and a cursor with the same text before it. -/
structure Displaced (offset : Nat) (x y : Value × Cursor) : Prop where
  value : x.1.Displaced offset y.1
  position : x.2.position = offset + y.2.position
  remaining : x.2.remaining = y.2.remaining
  config : x.2.config = y.2.config

/-- Outcomes of two runs that differ at most in their positions: both succeed, both fail, or
neither returns. -/
abbrev Outcome.Displaced (offset : Nat) : Outcome (Value × Cursor) → Outcome (Value × Cursor) → Prop :=
  Outcome.Alike (ParseError.Displaced offset) (fun _ => False) (Backtrack.Displaced offset)

/-! ## Cursors with more text in front -/

/-- The cursor with a text put in front of its own. -/
def Cursor.behind (s : Text) (c : Cursor) : Cursor := ⟨s ++ c.source, s.size + c.position, c.config⟩

theorem Location.remaining_behind (s t : Text) (p : Nat) :
    Location.remaining ⟨s ++ t, s.size + p⟩ = Location.remaining ⟨t, p⟩ := by
  simp only [Location.remaining, Text.after?_append_add]

theorem Cursor.remaining_behind (s : Text) (c : Cursor) : (c.behind s).remaining = c.remaining :=
  Location.remaining_behind s c.source c.position

theorem Cursor.atEnd_behind (s : Text) (c : Cursor) : (c.behind s).atEnd = c.atEnd := by
  simp [Cursor.atEnd, Cursor.behind]

theorem Cursor.advance_behind (s : Text) (c : Cursor) (n : Nat) :
    (c.behind s).advance n = (c.advance n).behind s := by
  simp [Cursor.advance, Cursor.behind, Nat.add_assoc]

/-- The first run has a text in front of what the second one reads. -/
def Simulation.behind (s : Text) : Simulation where
  cursor c d := c = d.behind s
  position p q := p = s.size + q
  error := ParseError.Displaced s.size
  excused _ := False
  node := Grammar.isRelative
  step _ := true
  remaining_eq := by rintro _ d rfl; exact Cursor.remaining_behind s d
  atEnd_eq := by rintro _ d rfl; exact Cursor.atEnd_behind s d
  position_at := by rintro _ d rfl; rfl
  moved_iff := by rintro _ d _ d' rfl rfl; simp [Cursor.behind]
  advance := by rintro _ d t r rfl -; exact Cursor.advance_behind s d t.size
  idle := by rintro _ d rfl; exact .inl rfl
  expected_eq := by
    rintro _ _ (h | _ | _)
    · simp [ParseError.expected?, h.expected]
    · rfl
    · rfl
  excused_fatal := @ParseError.isRecoverable_of_false
  failure := by
    rintro _ d rfl expected kind
    exact .failure ⟨rfl, rfl, rfl, rfl, Cursor.remaining_behind s d⟩
  noProgress := by rintro _ d rfl; exact .noProgress d.position
  aborted _ := .aborted
  configure := by rintro _ d config - rfl; rfl
  jump h := nomatch h
  failAt h := nomatch h
  catching _ _ := False.elim

/-! ## Runs at an offset -/

/-- A grammar that names no position of the text comes to the same from a boundary as from the
beginning of what is behind it, within every budget. -/
theorem parseAt_displaced {rules : Rules} {g : Grammar} {t r : Text} {offset : Nat}
    (hr : rules.All Grammar.isRelative fun _ => true)
    (hg : g.all Grammar.isRelative (fun _ => true) = true) (ht : t.after? offset = some r)
    (config : Config) (n : Nat) :
    Outcome.Displaced offset
      (Engine.parseAt ⟨(meaning rules n).parser g, config⟩ t offset)
      (Engine.parse ⟨(meaning rules n).parser g, config⟩ r) := by
  obtain ⟨s, rfl, rfl⟩ := Text.after?_eq_some_iff.1 ht
  have hs : Cursor.startAt (s ++ r) s.size = .ok ⟨s ++ r, s.size, .default⟩ :=
    Cursor.startAt_eq_ok_iff.2 ⟨⟨s, r, rfl, rfl⟩, rfl⟩
  have h0 : Cursor.startAt r 0 = .ok ⟨r, 0, .default⟩ :=
    Cursor.startAt_eq_ok_iff.2 ⟨⟨[], r, rfl, rfl⟩, rfl⟩
  simp only [Engine.parse, Engine.parseAt, hs, h0, Outcome.ok_bind]
  have hrun := (Simulation.run (S := .behind s) hr n).parser g hg
    ⟨s ++ r, s.size, config⟩ ⟨r, 0, config⟩ rfl
  refine Outcome.Alike.mono hrun fun x y hxy => ?_
  obtain ⟨hv, hc⟩ := hxy
  exact ⟨hv, by rw [hc]; rfl, by rw [hc]; exact Cursor.remaining_behind s y.2, by rw [hc]; rfl⟩

/-- Characters, each with what a digit there would be and with the place behind it. -/
def marks : Grammar :=
  .many (.block [.attempt (.char isDigit "digit"), .skip (.char (fun _ => true) "character"),
    .state] none)

theorem parseAt_displaced_marks :
    Rules.All Grammar.isRelative (fun _ => true) (fun _ => some marks) ∧
      (Grammar.ref "marks").all Grammar.isRelative (fun _ => true) = true ∧
      Text.after? "éa1b".toList 3 = some "1b".toList ∧
      ∃ x y, Engine.parseAt ⟨(meaning (fun _ => some marks) 9).parser (.ref "marks"), .default⟩
          "éa1b".toList 3 = .ok x ∧
        Engine.parse ⟨(meaning (fun _ => some marks) 9).parser (.ref "marks"), .default⟩
          "1b".toList = .ok y ∧ Displaced 3 x y := by
  have hr : Rules.All Grammar.isRelative (fun _ => true) (fun _ => some marks) := by
    intro name g h
    cases h
    rfl
  have ht : Text.after? "éa1b".toList 3 = some "1b".toList := by decide
  have h := parseAt_displaced hr (g := .ref "marks") rfl ht .default 9
  obtain ⟨x, hx⟩ : ∃ x, Engine.parseAt ⟨(meaning (fun _ => some marks) 9).parser (.ref "marks"),
    .default⟩ "éa1b".toList 3 = .ok x := ⟨_, rfl⟩
  obtain ⟨y, hy⟩ : ∃ y, Engine.parse ⟨(meaning (fun _ => some marks) 9).parser (.ref "marks"),
    .default⟩ "1b".toList = .ok y := ⟨_, rfl⟩
  rw [hx, hy] at h
  cases h with
  | ok h => exact ⟨hr, rfl, ht, x, y, hx, hy, h⟩

end Backtrack
