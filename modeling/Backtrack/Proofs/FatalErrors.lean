/-
Errors that are no failures are never intercepted, except by a step that catches them. Main
statement: in a grammar without such steps, once a call ends with a fatal error, all that is left
of the run is that the calls around it end with the same error, and so does the run
(`fatal_ends_run`). No combinator does more than look for failures, so none can go on.

The invariant of a record is that it surfaces: either no call in it ended fatally, or the fatal
ends are its last events, all of one error, which is also the outcome.
-/
import Backtrack.Proofs.Fragment
import Backtrack.Proofs.Record

namespace Backtrack

/-! ## Records that surface -/

/-- No call among the events ended with a fatal error. -/
def Quiet (l : List Event) : Prop := ∀ g c e, .error g c e ∈ l → e.isRecoverable = true

/-- A fatal error with which a call ended is the last that happens, and it is the outcome. -/
def Surfaces {α : Type} (l : List Event) (x : Outcome α) : Prop :=
  Quiet l ∨ ∃ e before after, l = before ++ after ∧ Quiet before ∧
    (∀ ev ∈ after, ∃ g c, ev = .error g c e) ∧ e.isRecoverable = false ∧ x = .error e

section

variable {α β : Type} {l k : List Event} {x : Outcome α} {y : Outcome β}

theorem quiet_nil : Quiet [] := by
  intro g c e h
  cases h

theorem Quiet.append (hl : Quiet l) (hk : Quiet k) : Quiet (l ++ k) :=
  fun g c e h => (List.mem_append.1 h).elim (hl g c e) (hk g c e)

theorem Quiet.cons_call (g : Grammar) (c : Cursor) (hl : Quiet l) : Quiet (.call g c :: l) :=
  fun g' c' e h => hl g' c' e (by simpa using h)

theorem Quiet.cons_step (s : Step) (c : Cursor) (hl : Quiet l) : Quiet (.step s c :: l) :=
  fun g' c' e h => hl g' c' e (by simpa using h)

theorem Quiet.surfaces (h : Quiet l) : Surfaces l x := .inl h

/-- Unless the outcome is a fatal error, nothing on record is. -/
theorem Surfaces.quiet (h : Surfaces l x) (hx : ∀ e, x = .error e → e.isRecoverable = true) :
    Quiet l := by
  rcases h with h | ⟨e, -, -, -, -, -, he, rfl⟩
  · exact h
  · rw [hx e rfl] at he; cases he

theorem Surfaces.mono (h : Surfaces l x)
    (hxy : ∀ e, e.isRecoverable = false → x = .error e → y = .error e) : Surfaces l y := by
  rcases h with h | ⟨e, before, after, hl, hb, ha, he, hx⟩
  · exact .inl h
  · exact .inr ⟨e, before, after, hl, hb, ha, he, hxy e he hx⟩

/-- Behind a fatal end there are fatal ends of the same error, which is the outcome. -/
theorem Surfaces.of_fatal {before after : List Event} {g : Grammar} {c : Cursor} {e : ParseError}
    (h : Surfaces (before ++ .error g c e :: after) x) (he : e.isRecoverable = false) :
    (∀ ev ∈ after, ∃ g c, ev = .error g c e) ∧ x = .error e := by
  rcases h with hq | ⟨e', quiet, fatal, hl, hq, hfatal, -, hx⟩
  · have hrecoverable := hq g c e (List.mem_append_right _ List.mem_cons_self)
    rw [hrecoverable] at he
    cases he
  · -- the fatal end is not among the quiet events, so it lies in the rest of the record
    obtain ⟨between, rfl⟩ : ∃ between, fatal = between ++ .error g c e :: after := by
      rcases List.append_eq_append_iff.1 hl with ⟨l, hquiet, hrest⟩ | ⟨l, -, hrest⟩
      · cases l with
        | nil => exact ⟨[], hrest.symm⟩
        | cons ev l =>
          obtain ⟨rfl, -⟩ := List.cons.inj hrest
          have hmem : .error g c e ∈ quiet := by
            rw [hquiet]
            simp
          rw [hq g c e hmem] at he
          cases he
      · exact ⟨l, hrest⟩
    obtain ⟨_, _, heq⟩ := hfatal (.error g c e) (by simp)
    obtain ⟨-, -, rfl⟩ := Event.error.inj heq
    exact ⟨fun ev hev => hfatal ev (by simp [hev]), hx⟩

theorem Surfaces.quiet_of_ok {a : α} (h : Surfaces l (.ok a)) : Quiet l :=
  h.quiet fun e he => by cases he

theorem Surfaces.of_error {e : ParseError} (h : Surfaces l (.error e : Outcome α)) :
    Surfaces l (.error e : Outcome β) :=
  h.mono fun e' _ he => by rw [Outcome.error.inj he]

theorem Surfaces.of_unfinished (h : Surfaces l (.unfinished : Outcome α)) (y : Outcome β) :
    Surfaces l y :=
  h.mono fun e _ he => by cases he

theorem Quiet.append_surfaces (hl : Quiet l) (hk : Surfaces k x) : Surfaces (l ++ k) x := by
  rcases hk with hk | ⟨e, before, after, rfl, hb, ha, he⟩
  · exact .inl (hl.append hk)
  · exact .inr ⟨e, l ++ before, after, (List.append_assoc ..).symm, hl.append hb, ha, he⟩

theorem Surfaces.cons_call (g : Grammar) (c : Cursor) (h : Surfaces l x) :
    Surfaces (.call g c :: l) x :=
  (Quiet.cons_call g c quiet_nil).append_surfaces h

theorem Surfaces.cons_step (s : Step) (c : Cursor) (h : Surfaces l x) :
    Surfaces (.step s c :: l) x :=
  (Quiet.cons_step s c quiet_nil).append_surfaces h

/-- A computation and, if it succeeds, another one. -/
theorem Surfaces.bind {f : α → Outcome β} {k : α → List Event} (h : Surfaces l x)
    (hk : ∀ a, Surfaces (k a) (f a)) : Surfaces (l ++ x.thenRecord k) (x >>= f) := by
  cases x with
  | ok a => exact h.quiet_of_ok.append_surfaces (hk a)
  | error e =>
    simp only [Outcome.thenRecord, List.append_nil]
    exact h.of_error
  | unfinished =>
    simp only [Outcome.thenRecord, List.append_nil]
    exact h.of_unfinished _

/-- What comes behind a computation does not keep its fatal errors from surfacing. -/
theorem Surfaces.before (h : Surfaces l x) (k : α → Outcome β) : Surfaces l (x >>= k) :=
  h.mono fun e _ he => by rw [he]; rfl

/-- A body and, if it goes through, another one. -/
theorem Surfaces.body {b : Body α} {k : α → Body β} {rest : α → Scope → List Event} {s : Scope}
    (h : Surfaces l (b s).1) (hk : ∀ a t, Surfaces (rest a t) (k a t).1) :
    Surfaces (l ++ b.thenRecord s rest) ((b >>= k) s).1 := by
  rw [Body.bind_apply]
  unfold Body.thenRecord
  rcases hb : b s with ⟨a | e | _, t⟩
  · rw [hb] at h
    exact h.quiet_of_ok.append_surfaces (hk a t)
  · rw [hb] at h
    rw [List.append_nil]
    exact h.of_error
  · rw [hb] at h
    rw [List.append_nil]
    exact h.of_unfinished _

/-- A call that ends with an error ends after all that happened in it. -/
theorem Surfaces.ended (g : Grammar) (c : Cursor) {x : Outcome (Value × Cursor)}
    (h : Surfaces l x) : Surfaces (l ++ Event.ended g c x) x := by
  cases x with
  | ok r =>
    refine (h.quiet_of_ok.append fun g' c' e he => ?_).surfaces
    simp [Event.ended] at he
  | unfinished => simpa only [Event.ended, List.append_nil] using h
  | error e =>
    rcases h with h | ⟨e', before, after, rfl, hb, ha, he, hx⟩
    · cases he : e.isRecoverable with
      | true =>
        refine (h.append fun g' c' e' hm => ?_).surfaces
        simp only [Event.ended, List.mem_singleton, Event.error.injEq] at hm
        rw [hm.2.2, he]
      | false =>
        -- the call is the first to end fatally
        refine .inr ⟨e, l, _, rfl, h, fun ev hev => ?_, he, rfl⟩
        exact ⟨g, c, List.mem_singleton.1 hev⟩
    · -- a call inside has ended fatally already, and this one does with the same error
      cases hx
      refine .inr ⟨e, before, after ++ [.error g c e], by simp [Event.ended], hb, fun ev hev => ?_,
        he, rfl⟩
      rcases List.mem_append.1 hev with hev | hev
      · exact ha ev hev
      · exact ⟨g, c, List.mem_singleton.1 hev⟩

theorem Surfaces.around (g : Grammar) {p : Parser Value} {inside : Cursor → List Event} {c : Cursor}
    (h : Surfaces (inside c) (p c)) : Surfaces (Event.around g p inside c) (p c) :=
  (h.ended g c).cons_call g c

end

/-! ## Numerals -/

/-- The parser fails only with failures. -/
def Parser.Mild {α : Type} (p : Parser α) : Prop := ∀ c e, p c = .error e → e.isRecoverable = true

namespace Parser

variable {α β : Type} {p : Parser α}

theorem mild_literal (s : String) : Mild (literal s) := by
  intro c e h
  unfold literal at h
  split at h <;> cases h
  rfl

theorem mild_takeWhile (keep : Char → Bool) : Mild (takeWhile keep) := by
  intro c e h
  cases h

theorem Mild.map (h : Mild p) (f : α → β) : Mild (p.map f) := by
  intro c e he
  unfold Parser.map at he
  cases hp : p c with
  | error e' =>
    rw [hp] at he
    cases he
    exact h c e hp
  | _ => rw [hp] at he; cases he

theorem Mild.refuseEmpty (h : Mild p) (empty : α → Bool) : Mild (refuseEmpty empty p) := by
  intro c e he
  unfold Parser.refuseEmpty at he
  cases hp : p c with
  | ok r =>
    simp only [hp, Outcome.ok_bind] at he
    split at he <;> cases he
    rfl
  | error e' =>
    rw [hp] at he
    cases he
    exact h c e hp
  | unfinished => rw [hp] at he; cases he

theorem Mild.optional (h : Mild p) : Mild (optional p) := by
  intro c e he
  unfold Parser.optional choice at he
  cases hp : p c with
  | ok r => rw [attempts_cons_ok hp] at he; cases he
  | error e' =>
    cases e' with
    | failure f => rw [attempts_cons_failure hp] at he; cases he
    | _ => cases h c _ hp
  | unfinished => rw [attempts_cons_unfinished hp] at he; cases he

theorem Mild.alt (h : Mild p) (message : Option String) : Mild (alt [p] message) := by
  intro c e he
  unfold Parser.alt at he
  cases hp : p c with
  | ok r => rw [attempts_cons_ok hp] at he; cases he
  | error e' =>
    cases e' with
    | failure f =>
      rw [attempts_cons_failure hp] at he
      simp only [attempts, Outcome.ok_bind] at he
      split at he <;> cases he <;> rfl
    | _ => cases h c _ hp
  | unfinished => rw [attempts_cons_unfinished hp] at he; cases he

end Parser

theorem quiet_around (g : Grammar) {p : Parser Value} (hp : p.Mild) {inside : Cursor → List Event}
    {c : Cursor} (h : Quiet (inside c)) : Quiet (Event.around g p inside c) :=
  (h.surfaces.around g).quiet (hp c)

theorem quiet_number (c : Cursor) : Quiet (Recording.number c) := by
  -- the parsers of a numeral look at the text only, so all their errors are failures
  have hsign := (Parser.mild_literal "-").map Value.text
  have hspan := (Parser.mild_takeWhile isDigit).map Value.text
  have hdigits := hspan.refuseEmpty Value.isEmptyText
  refine (quiet_around _ (hsign.optional.map _) (quiet_around _ hsign quiet_nil)).append ?_
  unfold Outcome.thenRecord
  split
  · exact quiet_around _ (hdigits.alt _) (quiet_around _ hdigits (quiet_around _ hspan quiet_nil))
  · exact quiet_nil

/-! ## The layers of a record -/

/-- A recording on which fatal errors surface, as long as no step catches them. -/
structure Surfacing (log : Recording) (m : Meaning) : Prop where
  parser : ∀ g : Grammar, g.all (fun _ => true) Step.isStrict = true → ∀ c,
    Surfaces (log.parser g c) (m.parser g c)
  body : ∀ xs, Step.allIn (fun _ => true) Step.isStrict xs = true → ∀ s,
    Surfaces (log.body xs s) (m.body xs s).1

namespace Surfacing

variable {log : Recording} {m : Meaning}

theorem attempts (h : Surfacing log m) (c : Cursor) : ∀ {gs : List Grammar},
    Grammar.allIn (fun _ => true) Step.isStrict gs = true →
    Surfaces (Recording.attempts m log gs c) (Parser.attempts (gs.map m.parser) c)
  | [], _ => quiet_nil.surfaces
  | g :: gs, hgs => by
    simp only [Grammar.allIn, Bool.and_eq_true] at hgs
    have hg := h.parser g hgs.1 c
    unfold Recording.attempts
    cases hm : m.parser g c with
    | error e =>
      rw [hm] at hg
      cases e with
      | failure f =>
        -- a failure is no fatal error, so nothing has surfaced before the next candidate
        rw [List.map_cons, Parser.attempts_cons_failure hm]
        refine (hg.quiet fun e he => by cases he; rfl).append_surfaces ?_
        exact (attempts h c hgs.2).mono fun e _ he => by rw [he]; rfl
      | _ =>
        rw [List.map_cons, Parser.attempts_cons_fatal hm rfl, List.append_nil]
        exact hg.of_error
    | ok r =>
      rw [hm] at hg
      rw [List.append_nil]
      exact hg.quiet_of_ok.surfaces
    | unfinished =>
      rw [hm] at hg
      rw [List.append_nil]
      exact hg.of_unfinished _

theorem iterate (h : Surfacing log m) {g : Grammar} (hg : g.all (fun _ => true) Step.isStrict = true) :
    ∀ (n : Nat) (c : Cursor),
      Surfaces (Recording.iterate m log g n c) (Parser.iterate n (m.parser g) c)
  | 0, _ => quiet_nil.surfaces
  | n + 1, c => by
    have hc := h.parser g hg c
    unfold Recording.iterate
    cases hm : m.parser g c with
    | ok r =>
      rw [hm] at hc
      have hq := hc.quiet_of_ok
      simp only [Outcome.thenRecord]
      by_cases hd : r.2.position = c.position
      · rw [if_pos hd, List.append_nil]
        exact hq.surfaces
      · rw [if_neg hd, Parser.iterate_succ_moved n hm hd]
        -- nothing has surfaced in this iteration, so it is left to the others
        exact hq.append_surfaces ((iterate h hg n r.2).mono fun e _ he => by rw [he]; rfl)
    | error e =>
      rw [hm] at hc
      simp only [Outcome.thenRecord, List.append_nil]
      refine hc.mono fun e' he' hx => ?_
      cases hx
      exact Parser.iterate_succ_fatal n hm he'
    | unfinished =>
      rw [hm] at hc
      simp only [Outcome.thenRecord, List.append_nil]
      exact hc.of_unfinished _

theorem optional (h : Surfacing log m) {g : Grammar} (hg : g.all (fun _ => true) Step.isStrict = true)
    (c : Cursor) : Surfaces (log.parser g c) (Parser.optional (m.parser g) c) := by
  refine (h.parser g hg c).mono fun e he hx => ?_
  unfold Parser.optional Parser.choice
  rw [Parser.attempts_cons_fatal hx he]
  rfl

/-- The record of a test, with what its step does with the outcome. -/
theorem test (h : Surfacing log m) {g : Grammar} (hg : g.all (fun _ => true) Step.isStrict = true)
    (s : Scope) : Surfaces (Recording.test m log g s.cursor)
      (Body.run (Parser.optional (m.parser g)) s).1 := by
  have hin : Surfaces (log.parser g s.cursor)
      (((Parser.optional (m.parser g)).map Value.ofOption) s.cursor) :=
    (h.optional hg s.cursor).before _
  refine (hin.around (.optional g)).mono fun e _ he => ?_
  unfold Body.run
  unfold Parser.map at he
  cases hp : Parser.optional (m.parser g) s.cursor with
  | error e' =>
    rw [hp] at he
    cases he
    rfl
  | _ => rw [hp] at he; cases he

theorem turns (h : Surfacing log m) {g : Grammar} {xs : List Step}
    (hg : g.all (fun _ => true) Step.isStrict = true)
    (hxs : Step.allIn (fun _ => true) Step.isStrict xs = true) : ∀ (n : Nat) (s : Scope),
      Surfaces (Recording.turns m log g xs n s)
        (Body.whileSome n (Body.run (Parser.optional (m.parser g))) (m.body xs) s).1
  | 0, _ => quiet_nil.surfaces
  | n + 1, s => by
    refine (h.test hg s).body fun found t => ?_
    cases found with
    | none => exact quiet_nil.surfaces
    | some v => exact (h.body xs hxs t).body fun _ t => turns h hg hxs n t

/-- A parser that a step runs before anything else. -/
theorem run (h : Surfacing log m) {g : Grammar} (hg : g.all (fun _ => true) Step.isStrict = true)
    (k : Value → Body Unit) (s : Scope) :
    Surfaces (log.parser g s.cursor) ((Body.run (m.parser g) >>= k) s).1 := by
  refine (h.parser g hg s.cursor).mono fun e _ he => ?_
  rw [Body.bind_apply, Body.run, he]

theorem step (h : Surfacing log m) (n : Nat) {x : Step}
    (hx : x.all (fun _ => true) Step.isStrict = true) (s : Scope) :
    Surfaces (Recording.step n m log x s) (x.layer n m s).1 := by
  have hstrict := Step.all_step hx
  cases x with
  | run g | skip g =>
    simp only [Step.all, Bool.and_eq_true] at hx
    exact h.run hx.2 _ s
  | attempt g => cases hstrict
  | peek g =>
    simp only [Step.all, Bool.and_eq_true] at hx
    refine (h.parser g hx.2 s.cursor).mono fun e _ he => ?_
    simp only [Step.layer, Body.bind_apply, Body.peek, he, Outcome.bind]
  | ifMatch g yes no =>
    simp only [Step.all, Bool.and_eq_true] at hx
    refine (h.test hx.2.1 s).body fun found t => ?_
    cases found with
    | some v => exact h.body yes hx.2.2.1 _
    | none => exact h.body no hx.2.2.2 t
  | whileMatch g xs =>
    simp only [Step.all, Bool.and_eq_true] at hx
    exact h.turns hx.2.1 hx.2.2 n s
  | _ => exact quiet_nil.surfaces

theorem steps (h : Surfacing log m) (n : Nat) : ∀ {xs : List Step},
    Step.allIn (fun _ => true) Step.isStrict xs = true → ∀ s : Scope,
      Surfaces (Recording.steps n m log xs s) (Step.sequence n m xs s).1
  | [], _, _ => quiet_nil.surfaces
  | x :: xs, hxs, s => by
    simp only [Step.allIn, Bool.and_eq_true] at hxs
    have hx := (h.step n hxs.1 s).cons_step x s.cursor
    exact hx.body fun _ t => steps h n hxs.2 t

theorem grammar (h : Surfacing log m) {rules : Rules}
    (hr : rules.All (fun _ => true) Step.isStrict) (n : Nat) {g : Grammar}
    (hg : g.all (fun _ => true) Step.isStrict = true) (c : Cursor) :
    Surfaces (Recording.grammar rules n m log g c) (g.layer rules n m c) := by
  cases g with
  | nonEmpty g | map g f | convert g f =>
    simp only [Grammar.all, Bool.and_eq_true] at hg
    exact (h.parser g hg.2 c).before _
  | and a b =>
    simp only [Grammar.all, Bool.and_eq_true] at hg
    refine Surfaces.before ?_ _
    exact (h.parser a hg.2.1 c).bind fun r => (h.parser b hg.2.2 r.2).before _
  | many g | many1 g =>
    simp only [Grammar.all, Bool.and_eq_true] at hg
    exact ((h.iterate hg.2 n c).before _).before _
  | choice gs message =>
    simp only [Grammar.all, Bool.and_eq_true] at hg
    exact ((h.attempts c hg.2).before _).before _
  | alt gs message =>
    simp only [Grammar.all, Bool.and_eq_true] at hg
    exact (h.attempts c hg.2).before _
  | block xs result =>
    simp only [Grammar.all, Bool.and_eq_true] at hg
    -- the body makes a parser of its own, which ends as the steps do
    refine (h.body xs hg.2 (.enter c)).mono fun e _ he => ?_
    simp only [Grammar.layer, Parser.ofBody, Body.bind_apply]
    rcases hb : m.body xs (.enter c) with ⟨x, s⟩
    rw [hb] at he
    simp only at he
    rw [he]
  | ref name =>
    simp only [Recording.grammar, Grammar.layer, Rules.parser]
    cases hn : rules name with
    | some g => exact h.parser g (hr name g hn) c
    | none => exact quiet_nil.surfaces
  | number => exact (quiet_number c).surfaces
  | _ => exact quiet_nil.surfaces

end Surfacing

theorem surfacing_recording {rules : Rules} (hr : rules.All (fun _ => true) Step.isStrict) :
    ∀ n, Surfacing (recording rules n) (meaning rules n)
  | 0 => ⟨fun g _ c => (Quiet.cons_call g c quiet_nil).surfaces, fun _ _ _ => quiet_nil.surfaces⟩
  | n + 1 =>
    have h := surfacing_recording hr n
    ⟨fun g hg c => (h.grammar hr n hg c).around g, fun _ hxs s => h.steps n hxs s⟩

/-- Once a call ends with a fatal error, no parser is called any more and no step is made: the
calls around it end with that very error, and so does the run, even if no call may be made but those
that have been made by then. So a run that succeeds or fails for the sake of the text has met no
fatal error at all. -/
theorem fatal_ends_run {rules : Rules} {g : Grammar} (hr : rules.All (fun _ => true) Step.isStrict)
    (hg : g.all (fun _ => true) Step.isStrict = true) (c : Cursor) (n : Nat) :
    (∀ before after g' c' e, g.record rules n c = before ++ .error g' c' e :: after →
      e.isRecoverable = false →
      (∀ ev ∈ after, ∃ h d, ev = .error h d e) ∧ (meaning rules n).parser g c = .error e ∧
      ∀ allow, Allowed allow before → (restricted allow rules n).parser g c = .error e) ∧
    ((∀ e, (meaning rules n).parser g c = .error e → e.isRecoverable = true) →
      ∀ g' c' e, .error g' c' e ∈ g.record rules n c → e.isRecoverable = true) := by
  have hs := (surfacing_recording hr n).parser g hg c
  constructor
  · intro before after g' c' e hl he
    change Surfaces (g.record rules n c) _ at hs
    rw [hl] at hs
    obtain ⟨hafter, hrun⟩ := hs.of_fatal he
    refine ⟨hafter, hrun, fun allow hallow => ?_⟩
    rw [← hrun]
    refine restricted_eq fun h d hcall => hallow h d ?_
    rw [hl, List.mem_append, List.mem_cons] at hcall
    rcases hcall with hcall | hcall | hcall
    · exact hcall
    · cases hcall
    · -- what is behind the fatal end are ends of calls
      obtain ⟨_, _, hev⟩ := hafter _ hcall
      cases hev
  · exact hs.quiet

/-- A letter that is read and then refused. -/
def refusal : Grammar := .convert (.char (· == 'b') "b") (.reject "refused")

/-- Any number of letters, each in a body of its own. -/
def letters : Grammar := .many (.optional (.block [.run (.ref "letter")] none))

/-- The refusal of the first letter ends the body, the choice and the repetition around it. -/
theorem fatal_ends_run_letters :
    Rules.All (fun _ => true) Step.isStrict (fun _ => some refusal) ∧
      letters.all (fun _ => true) Step.isStrict = true ∧
      (∀ ev ∈ (letters.record (fun _ => some refusal) 9 (.start "bb".toList)).drop 9,
        ∃ h d, ev = .error h d (.aborted "refused")) ∧
      (meaning (fun _ => some refusal) 9).parser letters (.start "bb".toList) =
        .error (.aborted "refused") := by
  have hr : Rules.All (fun _ => true) Step.isStrict (fun _ => some refusal) := by
    intro name g h
    cases h
    rfl
  have hg : letters.all (fun _ => true) Step.isStrict = true := rfl
  obtain ⟨hends, -⟩ := fatal_ends_run hr hg (.start "bb".toList) 9
  obtain ⟨hafter, hrun, -⟩ := hends
    ((letters.record (fun _ => some refusal) 9 (.start "bb".toList)).take 8)
    ((letters.record (fun _ => some refusal) 9 (.start "bb".toList)).drop 9)
    refusal (.start "bb".toList) (.aborted "refused") rfl rfl
  exact ⟨hr, hg, hafter, hrun⟩

end Backtrack
