/-
How much of the text the messages show does not matter to a run. Main statement: two runs from
cursors that differ at most in the limit for messages come to outcomes that differ at most in such
limits (`run_sameUpToLimit`), whatever the grammar does with its settings and with the errors that it
catches. The limit is copied into every failure, and failures decide where a run goes on; that what
they expected is the same in both runs is why the choices made on them are the same, too.
-/
import Backtrack.Proofs.Simulation.Run

namespace Backtrack

/-! ## The same up to the limit -/

/-- Cursors at one place of one text, under one policy for idle iterations. -/
structure Cursor.SameUpToLimit (c d : Cursor) : Prop where
  source : c.source = d.source
  position : c.position = d.position
  idle : c.config.idle = d.config.idle

/-- Failures that say the same about the same place, and may show more or less of what remains. -/
structure Failure.SameUpToLimit (f g : Failure) : Prop where
  source : f.location.source = g.location.source
  position : f.position = g.position
  expected : f.expected = g.expected
  kind : f.kind = g.kind
  remaining : f.remaining = g.remaining
  report : f.report = g.report
  /-- The messages differ in no more than the text that they quote. -/
  message : ∃ front behind, f.message = front ++ String.ofList f.snippet ++ behind ∧
    g.message = front ++ String.ofList g.snippet ++ behind

/-- Errors of one kind that differ at most in the limit of a failure. -/
inductive ParseError.SameUpToLimit : ParseError → ParseError → Prop
  | failure {f g : Failure} : f.SameUpToLimit g → SameUpToLimit (.failure f) (.failure g)
  | invalidStart (start length : Nat) :
      SameUpToLimit (.invalidStart start length) (.invalidStart start length)
  | noProgress (p : Nat) : SameUpToLimit (.noProgress p) (.noProgress p)
  | aborted (reason : String) : SameUpToLimit (.aborted reason) (.aborted reason)

/-- Values that differ at most in the limits of the failures that were caught. -/
abbrev Value.SameUpToLimit : Value → Value → Prop :=
  Value.Alike (· = ·) ParseError.SameUpToLimit

/-- What two runs gave: values and cursors that are the same up to limits. -/
structure SameUpToLimit (x y : Value × Cursor) : Prop where
  value : x.1.SameUpToLimit y.1
  cursor : x.2.SameUpToLimit y.2

/-- Outcomes of two runs that differ at most in limits: both succeed, both fail, or neither
returns. -/
abbrev Outcome.SameUpToLimit : Outcome (Value × Cursor) → Outcome (Value × Cursor) → Prop :=
  Outcome.Alike ParseError.SameUpToLimit (fun _ => False) Backtrack.SameUpToLimit

/-! ## Two runs side by side -/

/-- Failures that differ in their limits show them in their messages only. -/
theorem Failure.sameUpToLimit_mk (l : Location) (expected : String) (kind : FailureKind)
    (limit limit' : Option Nat) :
    Failure.SameUpToLimit ⟨l, expected, kind, limit⟩ ⟨l, expected, kind, limit'⟩ where
  source := rfl
  position := rfl
  expected := rfl
  kind := rfl
  remaining := rfl
  report := rfl
  message := ⟨"[Offset " ++ toString l.position ++ "]: Expected " ++ expected ++ "; Input: \"", "\"",
    rfl, rfl⟩

namespace Cursor.SameUpToLimit

variable {c d : Cursor}

theorem location (h : c.SameUpToLimit d) : c.location = d.location := by
  unfold Cursor.location
  rw [h.source, h.position]

theorem remaining (h : c.SameUpToLimit d) : c.remaining = d.remaining :=
  congrArg Location.remaining h.location

theorem atEnd (h : c.SameUpToLimit d) : c.atEnd = d.atEnd := by
  unfold Cursor.atEnd
  rw [h.source, h.position]

theorem advance (h : c.SameUpToLimit d) (bytes : Nat) :
    (c.advance bytes).SameUpToLimit (d.advance bytes) where
  source := h.source
  position := congrArg (· + bytes) h.position
  idle := h.idle

theorem failure (h : c.SameUpToLimit d) (expected : String) (kind : FailureKind) :
    ParseError.SameUpToLimit (.failure ⟨c.location, expected, kind, c.config.snippetLimit⟩)
      (.failure ⟨d.location, expected, kind, d.config.snippetLimit⟩) := by
  rw [h.location]
  exact .failure (Failure.sameUpToLimit_mk _ _ _ _ _)

/-- A jump resets the settings, and with them the limit, in both runs. -/
theorem startAt (h : c.SameUpToLimit d) (p : Nat) :
    Outcome.Alike ParseError.SameUpToLimit (fun _ => False) Cursor.SameUpToLimit
      (Cursor.startAt c.source p) (Cursor.startAt d.source p) := by
  rw [h.source]
  unfold Cursor.startAt
  split
  · exact .ok ⟨rfl, rfl, rfl⟩
  · exact .error (.invalidStart _ _)

end Cursor.SameUpToLimit

theorem ParseError.SameUpToLimit.expected?_eq {e f : ParseError} (h : e.SameUpToLimit f) :
    e.expected? = f.expected? := by
  cases h with
  | failure h => exact congrArg some h.expected
  | _ => rfl

/-- The second run differs in its limits at most. -/
def Simulation.upToLimit : Simulation where
  cursor := Cursor.SameUpToLimit
  position := (· = ·)
  error := ParseError.SameUpToLimit
  excused _ := False
  node _ := true
  step _ := true
  remaining_eq := Cursor.SameUpToLimit.remaining
  atEnd_eq := Cursor.SameUpToLimit.atEnd
  position_at := Cursor.SameUpToLimit.position
  moved_iff h h' := by rw [h.position, h'.position]
  advance h _ := h.advance _
  idle h := .inl h.idle
  expected_eq := ParseError.SameUpToLimit.expected?_eq
  excused_fatal := @ParseError.isRecoverable_of_false
  failure := Cursor.SameUpToLimit.failure
  noProgress h := by rw [h.position]; exact .noProgress _
  aborted _ := .aborted
  configure _ h := ⟨h.source, h.position, rfl⟩
  jump _ h := h.startAt _
  failAt _ h := by rw [h.source]; exact .failure (Failure.sameUpToLimit_mk _ _ _ _ _)
  catching _ _ := False.elim

/-- From cursors that differ in the limit at most, a grammar comes to outcomes that differ in limits
at most. -/
theorem run_sameUpToLimit (rules : Rules) (g : Grammar) {c d : Cursor} (h : c.SameUpToLimit d)
    (n : Nat) :
    Outcome.SameUpToLimit ((meaning rules n).parser g c) ((meaning rules n).parser g d) := by
  have hrules : rules.All Simulation.upToLimit.node Simulation.upToLimit.step :=
    Rules.all_of_forall (fun _ => rfl) (fun _ => rfl) rules
  have hg : g.all Simulation.upToLimit.node Simulation.upToLimit.step = true :=
    Grammar.all_of_forall (fun _ => rfl) (fun _ => rfl) g
  have hrun := (Simulation.run hrules n).parser g hg c d h
  exact Outcome.Alike.mono hrun fun _ _ hxy => ⟨hxy.1, hxy.2⟩

/-- A vote, with the number in front of it or with what there is instead. -/
def vote : Grammar :=
  .block [.attempt .number, .run (.alt [.literal "yes ", .literal "no "] none)] none

/-- The last vote is neither, and the messages show less of it under a limit. -/
theorem run_sameUpToLimit_votes :
    Cursor.SameUpToLimit ⟨"é3yes maybe".toList, 2, .default⟩
        ⟨"é3yes maybe".toList, 2, ⟨.fail, some 2⟩⟩ ∧
      ∃ f g, (meaning (fun _ => some vote) 9).parser (.and (.many (.ref "vote")) .endOfInput)
          ⟨"é3yes maybe".toList, 2, .default⟩ = .error (.failure f) ∧
        (meaning (fun _ => some vote) 9).parser (.and (.many (.ref "vote")) .endOfInput)
          ⟨"é3yes maybe".toList, 2, ⟨.fail, some 2⟩⟩ = .error (.failure g) ∧
        f.SameUpToLimit g ∧ f.position = 7 ∧ f.message ≠ g.message := by
  have hc : Cursor.SameUpToLimit ⟨"é3yes maybe".toList, 2, .default⟩
    ⟨"é3yes maybe".toList, 2, ⟨.fail, some 2⟩⟩ := ⟨rfl, rfl, rfl⟩
  have h := run_sameUpToLimit (fun _ => some vote) (.and (.many (.ref "vote")) .endOfInput) hc 9
  obtain ⟨f, hf, hp, hm⟩ : ∃ f, (meaning (fun _ => some vote) 9).parser
      (.and (.many (.ref "vote")) .endOfInput) ⟨"é3yes maybe".toList, 2, .default⟩ =
      .error (.failure f) ∧ f.position = 7 ∧
      f.message = "[Offset 7]: Expected end of input; Input: \"maybe\"" := ⟨_, rfl, rfl, rfl⟩
  obtain ⟨g, hg, hm'⟩ : ∃ g, (meaning (fun _ => some vote) 9).parser
      (.and (.many (.ref "vote")) .endOfInput) ⟨"é3yes maybe".toList, 2, ⟨.fail, some 2⟩⟩ =
      .error (.failure g) ∧
      g.message = "[Offset 7]: Expected end of input; Input: \"ma...\"" := ⟨_, rfl, rfl⟩
  rw [hf, hg] at h
  refine ⟨hc, f, g, hf, hg, ?_, hp, ?_⟩
  · cases h with
    | error h =>
      cases h with
      | failure h => exact h
    | excused h => exact False.elim h
  · rw [hm, hm']
    decide

end Backtrack
