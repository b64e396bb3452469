/-
Repetitions that may stand still only add answers. Main statement: where a run under the strict
policy for idle iterations comes to anything but the error of an idle iteration, the run under the
lenient policy comes to the same, and the cursors behind the two differ in the policy at most
(`lenient_of_strict`).

The strict run is compared with the lenient one until it meets an idle iteration. That excuses the
lenient run from then on, since the error reaches the end of the strict run unless a step catches
it. The settings may be replaced on the way, in both runs alike.
-/
import Backtrack.Proofs.Simulation.Run

namespace Backtrack

/-- The cursor with another policy for idle iterations. -/
def Cursor.under (c : Cursor) (idle : IdlePolicy) : Cursor := c.withConfig (c.config.withIdle idle)

/-! ## Values that are alike in all respects -/

mutual

theorem Value.Alike.eq : ∀ (v : Value) {w : Value}, Value.Alike (· = ·) (· = ·) v w → v = w
  | .some v, _, .some h => by rw [Value.Alike.eq v h]
  | .pair a b, _, .pair ha hb => by rw [Value.Alike.eq a ha, Value.Alike.eq b hb]
  | .list vs, _, .list h => by rw [Value.Alike.eq_of_forall₂ vs h]
  | .tagged _ v, _, .tagged tag h => by rw [Value.Alike.eq v h]
  | .caught _, _, .caught h => by rw [h]
  | .state .., _, .state _ _ h => by rw [h]
  | .unit, _, .unit | .bool _, _, .bool _ | .text _, _, .text _ | .int _, _, .int _
  | .none, _, .none | .undefined, _, .undefined => rfl

theorem Value.Alike.eq_of_forall₂ : ∀ (vs : List Value) {ws : List Value},
    List.Forall₂ (Value.Alike (· = ·) (· = ·)) vs ws → vs = ws
  | [], _, .nil => rfl
  | v :: vs, _, .cons h hs => by rw [Value.Alike.eq v h, Value.Alike.eq_of_forall₂ vs hs]

end

/-! ## The strict run beside the lenient one -/

/-- The second cursor is the first one, or it is lenient where the first one is strict. -/
def Cursor.EasedTo (c d : Cursor) : Prop := d = c ∨ c.config.idle = .fail ∧ d = c.under .stop

theorem Cursor.EasedTo.eq_under {c d : Cursor} (h : c.EasedTo d) : ∃ idle, d = c.under idle := by
  rcases h with rfl | ⟨-, rfl⟩
  · exact ⟨d.config.idle, rfl⟩
  · exact ⟨.stop, rfl⟩

/-- The first run is strict where the second is lenient, and the error of an idle iteration ends
the comparison. -/
def Simulation.eased : Simulation where
  cursor := Cursor.EasedTo
  position := (· = ·)
  error := (· = ·)
  excused := ParseError.IsIdle
  node _ := true
  step := Step.isStrict
  remaining_eq := by rintro c _ (rfl | ⟨-, rfl⟩) <;> rfl
  atEnd_eq := by rintro c _ (rfl | ⟨-, rfl⟩) <;> rfl
  position_at := by rintro c _ (rfl | ⟨-, rfl⟩) <;> rfl
  moved_iff := by
    intro c d c' d' h h'
    obtain ⟨_, rfl⟩ := h.eq_under
    obtain ⟨_, rfl⟩ := h'.eq_under
    rfl
  advance := by
    rintro c _ t r (rfl | ⟨hi, rfl⟩) -
    · exact .inl rfl
    · exact .inr ⟨hi, rfl⟩
  idle := by
    rintro c _ (rfl | ⟨hi, rfl⟩)
    · exact .inl rfl
    · exact .inr ⟨hi, c.position, rfl⟩
  expected_eq := by rintro e _ rfl; rfl
  excused_fatal := by rintro _ ⟨p, rfl⟩; rfl
  failure := by rintro c _ (rfl | ⟨-, rfl⟩) expected kind <;> rfl
  noProgress := by rintro c _ (rfl | ⟨-, rfl⟩) <;> rfl
  aborted _ _ := rfl
  configure := by rintro c _ config - (rfl | ⟨-, rfl⟩) <;> exact .inl rfl
  jump := by
    intro c d p _ h
    obtain ⟨_, rfl⟩ := h.eq_under
    -- both go to the same place, under the default settings
    show Outcome.Alike _ _ _ (Cursor.startAt c.source p) (Cursor.startAt c.source p)
    cases Cursor.startAt c.source p with
    | ok d => exact .ok (.inl rfl)
    | error e => exact .error rfl
    | unfinished => exact .unfinished
  failAt := by rintro c _ p expected kind limit - (rfl | ⟨-, rfl⟩) <;> rfl
  catching h := by cases h

/-- What a strict run comes to, unless it is the error of an idle iteration, the lenient run comes
to as well. -/
theorem lenient_of_strict {rules : Rules} {g : Grammar}
    (hr : rules.All (fun _ => true) Step.isStrict)
    (hg : g.all (fun _ => true) Step.isStrict = true) (c : Cursor) (n : Nat) :
    (∀ v d, (meaning rules n).parser g (c.under .fail) = .ok (v, d) →
      ∃ idle, (meaning rules n).parser g (c.under .stop) = .ok (v, d.under idle)) ∧
    ∀ e, (meaning rules n).parser g (c.under .fail) = .error e → ¬ e.IsIdle →
      (meaning rules n).parser g (c.under .stop) = .error e := by
  have hrun := (Simulation.run (S := .eased) hr n).parser g hg (c.under .fail) (c.under .stop)
    (.inr ⟨rfl, rfl⟩)
  constructor
  · intro v d h
    rw [h] at hrun
    generalize (meaning rules n).parser g (c.under .stop) = y at hrun
    cases hrun with
    | @ok _ y hy =>
      obtain ⟨w, d'⟩ := y
      obtain ⟨hv, hd⟩ := hy
      obtain rfl : v = w := Value.Alike.eq v hv
      obtain ⟨idle, rfl⟩ : ∃ idle, d' = d.under idle := hd.eq_under
      exact ⟨idle, rfl⟩
  · intro e h he
    rw [h] at hrun
    generalize (meaning rules n).parser g (c.under .stop) = y at hrun
    cases hrun with
    | error hf => rw [hf]
    | excused hidle => exact absurd hidle he

/-- A letter and a blank. -/
def initial : Grammar := .block [.run (.char Char.isAlpha "letter"), .skip (.literal " ")] none

/-- Initials, and then letters under settings of their own. -/
def initials : Grammar :=
  .and (.many1 (.ref "initial")) (.and (.configure ⟨.stop, some 3⟩) (.many (.takeWhile Char.isAlpha)))

/-- The last iteration stands still in both runs, where the settings have been replaced. -/
theorem lenient_of_strict_initials :
    Rules.All (fun _ => true) Step.isStrict (fun _ => some initial) ∧
      initials.all (fun _ => true) Step.isStrict = true ∧
      ∃ v d idle, d.position = 6 ∧
        (meaning (fun _ => some initial) 9).parser initials
          ((Cursor.start "a b cd!".toList).under .fail) = .ok (v, d) ∧
        (meaning (fun _ => some initial) 9).parser initials
          ((Cursor.start "a b cd!".toList).under .stop) = .ok (v, d.under idle) := by
  have hr : Rules.All (fun _ => true) Step.isStrict (fun _ => some initial) := by
    intro name g h
    cases h
    rfl
  have hg : initials.all (fun _ => true) Step.isStrict = true := rfl
  obtain ⟨hok, -⟩ := lenient_of_strict hr hg (.start "a b cd!".toList) 9
  obtain ⟨r, hrun⟩ : ∃ r, (meaning (fun _ => some initial) 9).parser initials
    ((Cursor.start "a b cd!".toList).under .fail) = .ok r := ⟨_, rfl⟩
  have hend : r.2.position = 6 := by cases hrun; rfl
  obtain ⟨idle, hlenient⟩ := hok r.1 r.2 hrun
  exact ⟨hr, hg, r.1, r.2, idle, hend, hrun, hlenient⟩

end Backtrack
