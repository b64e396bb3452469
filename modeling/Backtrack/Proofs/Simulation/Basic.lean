/-
Two runs of one grammar side by side. A simulation says which cursors and which errors of the two
runs are alike, and its laws ask that moving over the same characters, failing at a place and
changing the settings keep them so. Main statement: runs that start from alike cursors come to
alike outcomes within every budget (`Simulation.run`), whatever the grammar, as long as its nodes
and steps are those that the simulation admits.

An error of the first run may be excused: the second run then owes nothing any more. A relation
between a cursor and itself is a property of it, so a simulation on the diagonal is an invariant.
-/
import Backtrack.Grammar.Meaning
import Backtrack.Proofs.Fragment
import Mathlib.Data.List.Forall2

namespace Backtrack

/-! ## Values and outcomes -/

/-- Two values that differ at most in the positions of scopes and in the errors that were caught. -/
inductive Value.Alike (position : Nat → Nat → Prop) (error : ParseError → ParseError → Prop) :
    Value → Value → Prop
  | unit : Alike position error .unit .unit
  | bool (b : Bool) : Alike position error (.bool b) (.bool b)
  | text (t : Text) : Alike position error (.text t) (.text t)
  | int (n : Int) : Alike position error (.int n) (.int n)
  | none : Alike position error .none .none
  | some {v w : Value} : Alike position error v w → Alike position error (.some v) (.some w)
  | pair {a b v w : Value} : Alike position error a v → Alike position error b w →
      Alike position error (.pair a b) (.pair v w)
  | list {vs ws : List Value} : List.Forall₂ (Alike position error) vs ws →
      Alike position error (.list vs) (.list ws)
  | tagged (tag : String) {v w : Value} : Alike position error v w →
      Alike position error (.tagged tag v) (.tagged tag w)
  | caught {e f : ParseError} : error e f → Alike position error (.caught e) (.caught f)
  | state {p q : Nat} (remaining : Text) (atEnd : Bool) : position p q →
      Alike position error (.state p remaining atEnd) (.state q remaining atEnd)
  | undefined : Alike position error .undefined .undefined

/-- Two outcomes that are alike: values, errors, or no answer from either. -/
inductive Outcome.Alike (error : ParseError → ParseError → Prop) (excused : ParseError → Prop)
    {α β : Type} (R : α → β → Prop) : Outcome α → Outcome β → Prop
  | ok {a : α} {b : β} : R a b → Alike error excused R (.ok a) (.ok b)
  | error {e f : ParseError} : error e f → Alike error excused R (.error e) (.error f)
  | unfinished : Alike error excused R .unfinished .unfinished
  | excused {e : ParseError} {y : Outcome β} : excused e → Alike error excused R (.error e) y

theorem Outcome.Alike.bind {error : ParseError → ParseError → Prop} {excused : ParseError → Prop}
    {α β γ δ : Type} {R : α → β → Prop} {P : γ → δ → Prop} {x : Outcome α} {y : Outcome β}
    {k : α → Outcome γ} {l : β → Outcome δ} (h : Outcome.Alike error excused R x y)
    (hk : ∀ a b, R a b → Outcome.Alike error excused P (k a) (l b)) :
    Outcome.Alike error excused P (x >>= k) (y >>= l) := by
  cases h with
  | ok h => exact hk _ _ h
  | error h => exact .error h
  | unfinished => exact .unfinished
  | excused h => exact .excused h

theorem Outcome.Alike.mono {error : ParseError → ParseError → Prop} {excused : ParseError → Prop}
    {α β : Type} {R P : α → β → Prop} {x : Outcome α} {y : Outcome β}
    (h : Outcome.Alike error excused R x y) (hRP : ∀ a b, R a b → P a b) :
    Outcome.Alike error excused P x y := by
  cases h with
  | ok h => exact .ok (hRP _ _ h)
  | error h => exact .error h
  | unfinished => exact .unfinished
  | excused h => exact .excused h

namespace ParseError

/-- What a failure expected; other errors expected nothing. -/
def expected? : ParseError → Option String
  | .failure f => some f.expected
  | _ => none

theorem expected?_eq_none_iff {e : ParseError} : e.expected? = none ↔ e.isRecoverable = false := by
  cases e <;> simp [expected?, isRecoverable]

end ParseError

/-! ## Simulations -/

/-- Where no error is excused, each one that is ends the run. -/
theorem ParseError.isRecoverable_of_false {e : ParseError} (h : False) : e.isRecoverable = false :=
  h.elim

/-- What is alike in two runs. The laws for the settings, for jumps, for failures elsewhere and for
steps that catch errors hold only where the simulation admits them. -/
structure Simulation where
  cursor : Cursor → Cursor → Prop
  position : Nat → Nat → Prop
  error : ParseError → ParseError → Prop
  /-- The errors of the first run that end the comparison. -/
  excused : ParseError → Prop
  node : Grammar → Bool
  step : Step → Bool
  remaining_eq : ∀ {c d}, cursor c d → c.remaining = d.remaining
  atEnd_eq : ∀ {c d}, cursor c d → c.atEnd = d.atEnd
  position_at : ∀ {c d}, cursor c d → position c.position d.position
  moved_iff : ∀ {c d c' d'}, cursor c d → cursor c' d' →
    (c'.position = c.position ↔ d'.position = d.position)
  advance : ∀ {c d t r}, cursor c d → c.remaining = t ++ r →
    cursor (c.advance (Text.size t)) (d.advance (Text.size t))
  idle : ∀ {c d}, cursor c d → c.config.idle = d.config.idle ∨
    c.config.idle = .fail ∧ excused (.noProgress c.position)
  expected_eq : ∀ {e f}, error e f → e.expected? = f.expected?
  excused_fatal : ∀ {e}, excused e → e.isRecoverable = false
  failure : ∀ {c d}, cursor c d → ∀ expected kind,
    error (.failure ⟨c.location, expected, kind, c.config.snippetLimit⟩)
      (.failure ⟨d.location, expected, kind, d.config.snippetLimit⟩)
  noProgress : ∀ {c d}, cursor c d → error (.noProgress c.position) (.noProgress d.position)
  aborted : ∀ {c d}, cursor c d → ∀ reason, error (.aborted reason) (.aborted reason)
  configure : ∀ {c d config}, node (.configure config) = true → cursor c d →
    cursor (c.withConfig config) (d.withConfig config)
  jump : ∀ {c d p}, node (.jump p) = true → cursor c d →
    Outcome.Alike error excused cursor (Cursor.startAt c.source p) (Cursor.startAt d.source p)
  failAt : ∀ {c d p expected kind limit}, node (.failAt p expected kind limit) = true →
    cursor c d → error (.failure ⟨⟨c.source, p⟩, expected, kind, limit⟩)
      (.failure ⟨⟨d.source, p⟩, expected, kind, limit⟩)
  catching : ∀ {g}, step (.attempt g) = true → ∀ e, ¬ excused e

namespace Simulation

variable (S : Simulation) {α β γ δ : Type}

abbrev Values : Value → Value → Prop := Value.Alike S.position S.error

abbrev Outcomes (R : α → β → Prop) : Outcome α → Outcome β → Prop :=
  Outcome.Alike S.error S.excused R

/-- What parsers give on success: alike results, and alike cursors behind them. -/
def Results (R : α → β → Prop) (x : α × Cursor) (y : β × Cursor) : Prop :=
  R x.1 y.1 ∧ S.cursor x.2 y.2

/-- Parsers that come to alike outcomes from alike cursors. -/
def Parsers (R : α → β → Prop) (p : Parser α) (q : Parser β) : Prop :=
  ∀ c d, S.cursor c d → S.Outcomes (S.Results R) (p c) (q d)

variable {S}

theorem fails {c d : Cursor} (h : S.cursor c d) (expected : String) :
    S.error (c.fail expected) (d.fail expected) := S.failure h expected .atomic

/-- Alike errors are either two failures that expected the same, or both fatal. -/
theorem error_cases {e f : ParseError} (h : S.error e f) :
    (∃ x y, e = .failure x ∧ f = .failure y ∧ x.expected = y.expected) ∨
      e.isRecoverable = false ∧ f.isRecoverable = false := by
  have he := S.expected_eq h
  cases e with
  | failure x =>
    cases f with
    | failure y => exact .inl ⟨x, y, rfl, rfl, by simpa [ParseError.expected?] using he⟩
    | _ => simp [ParseError.expected?] at he
  | _ =>
    -- a fatal error expects nothing, and what expects nothing is fatal
    refine .inr ⟨rfl, ParseError.expected?_eq_none_iff.1 ?_⟩
    rw [← he]; rfl

/-! ## Parsers that do not call others -/

theorem literal (s : String) : S.Parsers (· = ·) (Parser.literal s) (Parser.literal s) := by
  intro c d h
  unfold Parser.literal
  rw [S.remaining_eq h]
  split
  · next hp =>
    obtain ⟨r, hr⟩ := List.isPrefixOf_iff_prefix.1 hp
    exact .ok ⟨rfl, S.advance h (by rw [S.remaining_eq h, hr])⟩
  · exact .error (fails h _)

theorem takeWhile (keep : Char → Bool) :
    S.Parsers (· = ·) (Parser.takeWhile keep) (Parser.takeWhile keep) := by
  intro c d h
  rw [Parser.takeWhile_eq, Parser.takeWhile_eq, ← S.remaining_eq h]
  exact .ok ⟨rfl, S.advance h List.takeWhile_append_dropWhile.symm⟩

theorem current_eq {c d : Cursor} (h : S.cursor c d) : c.current = d.current := by
  rw [Cursor.current, Cursor.current, S.remaining_eq h]

theorem next {c d : Cursor} (h : S.cursor c d) : S.cursor c.next d.next := by
  unfold Cursor.next
  rw [← current_eq h]
  split
  · next ch hc =>
    obtain ⟨r, hr⟩ := List.head?_eq_some_iff.1 hc
    exact S.advance (t := [ch]) h hr
  · exact h

theorem char (keep : Char → Bool) (expected : String) :
    S.Parsers (· = ·) (Parser.char keep expected) (Parser.char keep expected) := by
  intro c d h
  unfold Parser.char
  rw [← current_eq h]
  split
  · split
    · exact .ok ⟨rfl, next h⟩
    · exact .error (fails h _)
  · exact .error (fails h _)

theorem endOfInput : S.Parsers (· = ·) Parser.endOfInput Parser.endOfInput := by
  intro c d h
  unfold Parser.endOfInput
  rw [S.atEnd_eq h]
  split
  · exact .ok ⟨rfl, h⟩
  · exact .error (fails h _)

/-! ## Combinators -/

section

variable {R : α → β → Prop} {P : γ → δ → Prop} {p : Parser α} {q : Parser β}

theorem succeed {a : α} {b : β} (h : R a b) : S.Parsers R (Parser.succeed a) (Parser.succeed b) :=
  fun _ _ hc => .ok ⟨h, hc⟩

theorem map (h : S.Parsers R p q) {f : α → γ} {g : β → δ} (hf : ∀ a b, R a b → P (f a) (g b)) :
    S.Parsers P (p.map f) (q.map g) := fun c d hc =>
  (h c d hc).bind fun _ _ hx => .ok ⟨hf _ _ hx.1, hx.2⟩

theorem and {p' : Parser γ} {q' : Parser δ} (h : S.Parsers R p q) (h' : S.Parsers P p' q') :
    S.Parsers (fun x y => R x.1 y.1 ∧ P x.2 y.2) (p.and p') (q.and q') := fun c d hc =>
  (h c d hc).bind fun _ _ hx => (h' _ _ hx.2).bind fun _ _ hy => .ok ⟨⟨hx.1, hy.1⟩, hy.2⟩

theorem refuseEmpty (h : S.Parsers R p q) {f : α → Bool} {g : β → Bool}
    (hf : ∀ a b, R a b → f a = g b) :
    S.Parsers R (Parser.refuseEmpty f p) (Parser.refuseEmpty g q) := fun c d hc =>
  (h c d hc).bind fun x y hx => by
    simp only [hf _ _ hx.1]
    split
    · exact .error (fails hc _)
    · exact .ok hx

/-- Attempts at a choice that are alike: the same candidate matched, or all failed alike. -/
inductive Tries (S : Simulation) (R : α → β → Prop) : Attempts α → Attempts β → Prop
  | matched {a : α} {b : β} {c d : Cursor} : R a b → S.cursor c d →
      Tries S R (.matched a c) (.matched b d)
  | missed {fs fs' : List Failure} :
      List.Forall₂ (fun f f' => S.error (.failure f) (.failure f')) fs fs' →
      Tries S R (.missed fs) (.missed fs')

theorem attempts {ps : List (Parser α)} {qs : List (Parser β)} (h : List.Forall₂ (S.Parsers R) ps qs)
    {c d : Cursor} (hc : S.cursor c d) :
    S.Outcomes (Tries S R) (Parser.attempts ps c) (Parser.attempts qs d) := by
  induction h with
  | nil => exact .ok (.missed .nil)
  | @cons p q ps qs hp _ ih =>
    have hpq := hp c d hc
    generalize hx : p c = x at hpq
    generalize hy : q d = y at hpq
    cases hpq with
    | ok h =>
      rw [Parser.attempts_cons_ok hx, Parser.attempts_cons_ok hy]
      exact .ok (.matched h.1 h.2)
    | error h =>
      rcases error_cases h with ⟨f, f', rfl, rfl, -⟩ | ⟨he, hf⟩
      · -- the next candidate starts where this one did, so the cursors are still alike
        rw [Parser.attempts_cons_failure hx, Parser.attempts_cons_failure hy]
        refine ih.bind fun u v huv => ?_
        cases huv with
        | matched hv hn => exact .ok (.matched hv hn)
        | missed hfs => exact .ok (.missed (.cons h hfs))
      · rw [Parser.attempts_cons_fatal hx he, Parser.attempts_cons_fatal hy hf]
        exact .error h
    | unfinished =>
      rw [Parser.attempts_cons_unfinished hx, Parser.attempts_cons_unfinished hy]
      exact .unfinished
    | excused h =>
      rw [Parser.attempts_cons_fatal hx (S.excused_fatal h)]
      exact .excused h

theorem missed {c d : Cursor} (hc : S.cursor c d) (message : Option String) {fs fs' : List Failure}
    (h : List.Forall₂ (fun f f' => S.error (.failure f) (.failure f')) fs fs') :
    S.error (.failure (Parser.missed message fs c)) (.failure (Parser.missed message fs' d)) := by
  -- the message is made of what was expected, and of nothing else in the failures
  have hfs : fs.map Failure.expected = fs'.map Failure.expected := by
    induction h with
    | nil => rfl
    | cons h _ ih => simp_all [by simpa [ParseError.expected?] using S.expected_eq h]
  have hm : Parser.expectation message fs = Parser.expectation message fs' := by
    unfold Parser.expectation; rw [hfs]
  unfold Parser.missed
  rw [hm]
  exact S.failure hc _ .aggregate

theorem choice {ps : List (Parser α)} {qs : List (Parser β)} (h : List.Forall₂ (S.Parsers R) ps qs)
    (message : Option String) :
    S.Parsers (Option.Rel R) (Parser.choice ps message) (Parser.choice qs message) := fun c d hc =>
  (attempts h hc).bind fun u v huv => by
    cases huv with
    | matched hv hn => exact .ok ⟨.some hv, hn⟩
    | missed hfs =>
      simp only [hfs.length_eq]
      split
      · exact .error (missed hc message hfs)
      · exact .ok ⟨.none, hc⟩

theorem alt {ps : List (Parser α)} {qs : List (Parser β)} (h : List.Forall₂ (S.Parsers R) ps qs)
    (message : Option String) :
    S.Parsers R (Parser.alt ps message) (Parser.alt qs message) := fun c d hc =>
  (attempts h hc).bind fun u v huv => by
    cases huv with
    | matched hv hn => exact .ok ⟨hv, hn⟩
    | missed hfs =>
      simp only [hfs.length_eq]
      split
      · exact .error (missed hc message hfs)
      · cases hfs with
        | nil => exact .error (fails hc _)
        | cons hf _ => exact .error hf

theorem optional (h : S.Parsers R p q) :
    S.Parsers (Option.Rel R) (Parser.optional p) (Parser.optional q) := choice (.cons h .nil) none

/-- Repetitions that are alike: as many values, alike one by one, and alike ends. -/
structure Repeats (S : Simulation) (R : α → β → Prop) (x : Repetition α) (y : Repetition β) :
    Prop where
  values : List.Forall₂ R x.values y.values
  cursor : S.cursor x.cursor y.cursor
  failure : Option.Rel (fun f f' => S.error (.failure f) (.failure f')) x.failure y.failure

theorem iterate (h : S.Parsers R p q) : ∀ (n : Nat) {c d : Cursor}, S.cursor c d →
    S.Outcomes (Repeats S R) (Parser.iterate n p c) (Parser.iterate n q d)
  | 0, _, _, _ => .unfinished
  | n + 1, c, d, hc => by
    have hpq := h c d hc
    generalize hx : p c = x at hpq
    generalize hy : q d = y at hpq
    cases hpq with
    | @ok a b hab =>
      by_cases hm : a.2.position = c.position
      · -- both stand still, and the settings where the iteration started decide
        have hm' := (S.moved_iff hc hab.2).1 hm
        rcases S.idle hc with hi | ⟨hi, he⟩
        · cases hp : c.config.idle with
          | fail =>
            rw [Parser.iterate_succ_idle_fail n hx hm hp,
              Parser.iterate_succ_idle_fail n hy hm' (by rw [← hi, hp])]
            exact .error (S.noProgress hc)
          | stop =>
            rw [Parser.iterate_succ_idle_stop n hx hm hp,
              Parser.iterate_succ_idle_stop n hy hm' (by rw [← hi, hp])]
            exact .ok ⟨.nil, hc, .none⟩
        · -- only the first run has to stop here, and that is excused
          rw [Parser.iterate_succ_idle_fail n hx hm hi]
          exact .excused he
      · rw [Parser.iterate_succ_moved n hx hm,
          Parser.iterate_succ_moved n hy (mt (S.moved_iff hc hab.2).2 hm)]
        exact (iterate h n hab.2).bind fun _ _ hr => .ok ⟨.cons hab.1 hr.values, hr.cursor, hr.failure⟩
    | error he =>
      rcases error_cases he with ⟨f, f', rfl, rfl, -⟩ | ⟨hf, hf'⟩
      · rw [Parser.iterate_succ_failure n hx, Parser.iterate_succ_failure n hy]
        exact .ok ⟨.nil, hc, .some he⟩
      · rw [Parser.iterate_succ_fatal n hx hf, Parser.iterate_succ_fatal n hy hf']
        exact .error he
    | unfinished =>
      rw [Parser.iterate_succ_unfinished n hx, Parser.iterate_succ_unfinished n hy]
      exact .unfinished
    | excused he =>
      rw [Parser.iterate_succ_fatal n hx (S.excused_fatal he)]
      exact .excused he

theorem many (h : S.Parsers R p q) (n : Nat) :
    S.Parsers (List.Forall₂ R) (Parser.many n p) (Parser.many n q) := fun _ _ hc =>
  (iterate h n hc).bind fun _ _ hr => .ok ⟨hr.values, hr.cursor⟩

theorem many1 (h : S.Parsers R p q) (n : Nat) :
    S.Parsers (List.Forall₂ R) (Parser.many1 n p) (Parser.many1 n q) := fun c d hc =>
  (iterate h n hc).bind fun x y hr => by
    obtain ⟨vs, c', f⟩ := x
    obtain ⟨ws, d', f'⟩ := y
    obtain ⟨hv, hn, hf⟩ := hr
    cases hv with
    | nil =>
      -- without a value the failure that ended the repetition is that of the whole
      cases hf with
      | some hf => exact .error hf
      | none => exact .error (fails hc "")
    | cons hv hvs => exact .ok ⟨.cons hv hvs, hn⟩

end

end Simulation

end Backtrack
