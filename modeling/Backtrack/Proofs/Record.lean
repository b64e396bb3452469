/-
The record of a run: which parsers are called in it, from which cursors, in what order, and what
each call came to; and where a body stood at each of its steps. The record is written beside the
meaning, layer by layer, and takes what the calls come to from the meaning itself, so that it adds
no second account of how a grammar parses. A call that has not returned within the budget is in
the record without an end.

Main statement: the record leaves out no call (`restricted_eq`). A run that may only make calls
that some test lets pass comes to what the unrestricted run comes to, if the test lets pass the
calls on record.
-/
import Backtrack.Grammar.Meaning

namespace Backtrack

/-- What happens in a run: a body goes to its next step, a parser is called, or its call comes to
an end. -/
inductive Event where
  /-- A step of a body, where the scope stands. -/
  | step (x : Step) (c : Cursor)
  | call (g : Grammar) (c : Cursor)
  | success (g : Grammar) (c : Cursor) (v : Value) (next : Cursor)
  | error (g : Grammar) (c : Cursor) (e : ParseError)

namespace Event

/-- The cursors of an event: where a step is made, and what a parser is handed or hands back. -/
def cursors : Event → List Cursor
  | .step _ c | .call _ c => [c]
  | .success _ c _ next => [c, next]
  | .error _ c _ => [c]

/-- The end of a call, if it has returned. -/
def ended (g : Grammar) (c : Cursor) : Outcome (Value × Cursor) → List Event
  | .ok (v, next) => [.success g c v next]
  | .error e => [.error g c e]
  | .unfinished => []

/-- A call of a parser from its beginning to its end. -/
def around (g : Grammar) (p : Parser Value) (inside : Cursor → List Event) (c : Cursor) :
    List Event :=
  .call g c :: (inside c ++ ended g c (p c))

end Event

/-- What goes on record after a computation that succeeded; nothing after any other. -/
def Outcome.thenRecord {α : Type} (x : Outcome α) (k : α → List Event) : List Event :=
  match x with
  | .ok a => k a
  | _ => []

/-- What goes on record after a body that went through, given its value and the scope it left. -/
def Body.thenRecord {α : Type} (b : Body α) (s : Scope) (k : α → Scope → List Event) : List Event :=
  match b s with
  | (.ok a, s) => k a s
  | _ => []

/-- The events of the grammars and of the bodies of a layer. -/
structure Recording where
  parser : Grammar → Cursor → List Event
  body : List Step → Scope → List Event

namespace Recording

/-- The calls of the candidates of a choice. -/
def attempts (m : Meaning) (log : Recording) : List Grammar → Cursor → List Event
  | [], _ => []
  | g :: gs, c => log.parser g c ++
    match m.parser g c with
    | .error (.failure _) => attempts m log gs c
    | _ => []

/-- The calls of the iterations of a repetition. -/
def iterate (m : Meaning) (log : Recording) (g : Grammar) : Nat → Cursor → List Event
  | 0, _ => []
  | budget + 1, c => log.parser g c ++ (m.parser g c).thenRecord fun r =>
    if r.2.position = c.position then [] else iterate m log g budget r.2

/-- The calls that reading a numeral makes: of its sign, and then of its digits. -/
def number (c : Cursor) : List Event :=
  let sign : Parser Value := (Parser.literal "-").map .text
  let span : Parser Value := (Parser.takeWhile isDigit).map .text
  let digits : Parser Value := Parser.refuseEmpty Value.isEmptyText span
  Event.around (.optional (.literal "-")) ((Parser.optional sign).map Value.ofOption)
      (Event.around (.literal "-") sign fun _ => []) c ++
    (Parser.optional sign c).thenRecord fun r =>
      Event.around (.alt [.nonEmpty (.takeWhile isDigit)] (some "digit"))
        (Parser.alt [digits] (some "digit"))
        (Event.around (.nonEmpty (.takeWhile isDigit)) digits
          (Event.around (.takeWhile isDigit) span fun _ => [])) r.2

/-- The call of a test: an optional match of a grammar. -/
def test (m : Meaning) (log : Recording) (g : Grammar) : Cursor → List Event :=
  Event.around (.optional g) ((Parser.optional (m.parser g)).map Value.ofOption) (log.parser g)

/-- The calls of the turns of a loop. -/
def turns (m : Meaning) (log : Recording) (g : Grammar) (steps : List Step) :
    Nat → Scope → List Event
  | 0, _ => []
  | budget + 1, s => test m log g s.cursor ++
    (Body.run (Parser.optional (m.parser g))).thenRecord s fun
      | some _, s => log.body steps s ++
        (m.body steps).thenRecord s fun _ s => turns m log g steps budget s
      | none, _ => []

/-- The calls that a step makes. -/
def step (budget : Nat) (m : Meaning) (log : Recording) : Step → Scope → List Event
  | .run g, s | .skip g, s | .attempt g, s | .peek g, s => log.parser g s.cursor
  | .ifMatch g yes no, s => test m log g s.cursor ++
    (Body.run (Parser.optional (m.parser g))).thenRecord s fun
      | some v, s => log.body yes { s with pushed := s.pushed ++ [v] }
      | none, s => log.body no s
  | .whileMatch g steps, s => turns m log g steps budget s
  | .state, _ | .fail _, _ | .requireEnd _, _ | .abort _, _ => []

/-- Steps, one after the other, with the calls that they make. -/
def steps (budget : Nat) (m : Meaning) (log : Recording) : List Step → Scope → List Event
  | [], _ => []
  | x :: xs, s => (.step x s.cursor :: step budget m log x s) ++
    (x.layer budget m).thenRecord s fun _ s => steps budget m log xs s

/-- The calls that a grammar makes. -/
def grammar (rules : Rules) (budget : Nat) (m : Meaning) (log : Recording) :
    Grammar → Cursor → List Event
  | .nonEmpty g, c | .map g _, c | .convert g _, c => log.parser g c
  | .and a b, c => log.parser a c ++ (m.parser a c).thenRecord fun r => log.parser b r.2
  | .many g, c | .many1 g, c => iterate m log g budget c
  | .choice gs _, c | .alt gs _, c => attempts m log gs c
  | .block xs _, c => log.body xs (.enter c)
  | .ref name, c =>
    match rules name with
    | some g => log.parser g c
    | none => []
  | .number, c => number c
  | .literal _, _ | .takeWhile _, _ | .char .., _ | .endOfInput, _ | .succeed _, _ | .fail _, _
  | .failAt .., _ | .abort _, _ | .configure _, _ | .jump _, _ => []

end Recording

/-- The record of a run within a budget. -/
def recording (rules : Rules) : Nat → Recording
  | 0 =>
    { parser := fun g c => [.call g c]
      body := fun _ _ => [] }
  | budget + 1 =>
    { parser := fun g => Event.around g ((meaning rules (budget + 1)).parser g)
        (Recording.grammar rules budget (meaning rules budget) (recording rules budget) g)
      body := Recording.steps budget (meaning rules budget) (recording rules budget) }

/-- What happens when a grammar runs from a cursor, in order. -/
def Grammar.record (rules : Rules) (budget : Nat) (g : Grammar) (c : Cursor) : List Event :=
  (recording rules budget).parser g c

/-! ## Runs that may not make every call -/

/-- The meaning within a budget where a call that the test does not let pass never returns. -/
def restricted (allow : Grammar → Cursor → Bool) (rules : Rules) : Nat → Meaning
  | 0 => .silent
  | budget + 1 =>
    { parser := fun g c =>
        if allow g c then g.layer rules budget (restricted allow rules budget) c else .unfinished
      body := fun steps => Step.sequence budget (restricted allow rules budget) steps }

/-- The test lets pass every call of a record. -/
def Allowed (allow : Grammar → Cursor → Bool) (events : List Event) : Prop :=
  ∀ g c, .call g c ∈ events → allow g c = true

section

variable {allow : Grammar → Cursor → Bool}

theorem Allowed.of_append {l k : List Event} (h : Allowed allow (l ++ k)) :
    Allowed allow l ∧ Allowed allow k :=
  ⟨fun g c hm => h g c (List.mem_append_left _ hm), fun g c hm => h g c (List.mem_append_right _ hm)⟩

theorem Allowed.of_cons {e : Event} {l : List Event} (h : Allowed allow (e :: l)) : Allowed allow l :=
  fun g c hm => h g c (List.mem_cons_of_mem _ hm)

theorem Allowed.of_around {g : Grammar} {p : Parser Value} {inside : Cursor → List Event} {c : Cursor}
    (h : Allowed allow (Event.around g p inside c)) :
    allow g c = true ∧ Allowed allow (inside c) :=
  ⟨h g c List.mem_cons_self,
    h.of_cons.of_append.1⟩

/-- The first meaning agrees with the second where the record of the second is allowed. -/
structure Agrees (allow : Grammar → Cursor → Bool) (log : Recording) (m m' : Meaning) : Prop where
  parser : ∀ g c, Allowed allow (log.parser g c) → m.parser g c = m'.parser g c
  body : ∀ xs s, Allowed allow (log.body xs s) → m.body xs s = m'.body xs s

namespace Agrees

variable {log : Recording} {m m' : Meaning}

theorem attempts (h : Agrees allow log m m') (c : Cursor) : ∀ gs : List Grammar,
    Allowed allow (Recording.attempts m' log gs c) →
    Parser.attempts (gs.map m.parser) c = Parser.attempts (gs.map m'.parser) c
  | [], _ => rfl
  | g :: gs, ha => by
    obtain ⟨hg, hgs⟩ := ha.of_append
    have hp := h.parser g c hg
    simp only [List.map_cons]
    cases hm : m'.parser g c with
    | ok r => rw [Parser.attempts_cons_ok (hp.trans hm), Parser.attempts_cons_ok hm]
    | error e =>
      cases e with
      | failure f =>
        rw [hm] at hgs
        rw [Parser.attempts_cons_failure (hp.trans hm), Parser.attempts_cons_failure hm,
          attempts h c gs hgs]
      | _ => rw [Parser.attempts_cons_fatal (hp.trans hm) rfl, Parser.attempts_cons_fatal hm rfl]
    | unfinished =>
      rw [Parser.attempts_cons_unfinished (hp.trans hm), Parser.attempts_cons_unfinished hm]

theorem iterate (h : Agrees allow log m m') (g : Grammar) : ∀ (n : Nat) (c : Cursor),
    Allowed allow (Recording.iterate m' log g n c) →
    Parser.iterate n (m.parser g) c = Parser.iterate n (m'.parser g) c
  | 0, _, _ => rfl
  | n + 1, c, ha => by
    obtain ⟨hg, hr⟩ := ha.of_append
    unfold Parser.iterate
    rw [h.parser g c hg]
    cases hm : m'.parser g c with
    | ok r =>
      simp only [hm, Outcome.thenRecord] at hr
      by_cases hd : r.2.position = c.position
      · -- no call follows an idle iteration, whatever the settings
        simp only [hd, if_true]
      · rw [if_neg hd] at hr
        simp only [hd, if_false, iterate h g n r.2 hr]
    | error e => cases e <;> rfl
    | unfinished => rfl

theorem optional (h : Agrees allow log m m') {g : Grammar} {c : Cursor}
    (ha : Allowed allow (Recording.test m' log g c)) :
    Parser.optional (m.parser g) c = Parser.optional (m'.parser g) c := by
  simp only [Parser.optional, Parser.choice, Parser.attempts, h.parser g c ha.of_around.2]

/-- A body that is the same in both meanings, and what follows it. -/
theorem bind {α β : Type} {b b' : Body α} {k k' : α → Body β} {s : Scope}
    {rest : α → Scope → List Event} (hb : b s = b' s)
    (hk : ∀ a t, Allowed allow (rest a t) → k a t = k' a t)
    (ha : Allowed allow (b'.thenRecord s rest)) : (b >>= k) s = (b' >>= k') s := by
  rw [Body.bind_apply, Body.bind_apply, hb]
  unfold Body.thenRecord at ha
  -- what follows is on record only if the first body goes through
  rcases hr : b' s with ⟨_ | _ | _, t⟩
  · next a =>
    rw [hr] at ha
    exact hk a t ha
  · rfl
  · rfl

theorem test (h : Agrees allow log m m') {g : Grammar} {s : Scope}
    (ha : Allowed allow (Recording.test m' log g s.cursor)) :
    Body.run (Parser.optional (m.parser g)) s = Body.run (Parser.optional (m'.parser g)) s := by
  simp only [Body.run, h.optional ha]

theorem turns (h : Agrees allow log m m') (g : Grammar) (xs : List Step) : ∀ (n : Nat) (s : Scope),
    Allowed allow (Recording.turns m' log g xs n s) →
    Body.whileSome n (Body.run (Parser.optional (m.parser g))) (m.body xs) s =
      Body.whileSome n (Body.run (Parser.optional (m'.parser g))) (m'.body xs) s
  | 0, _, _ => rfl
  | n + 1, s, ha => by
    obtain ⟨ht, hr⟩ := ha.of_append
    -- the test is the same in both meanings, so both loops go on or both stop
    refine bind (h.test ht) (fun found t ha => ?_) hr
    cases found with
    | none => rfl
    | some v =>
      obtain ⟨hb, hr⟩ := ha.of_append
      exact bind (h.body xs t hb) (fun _ t ha => turns h g xs n t ha) hr

theorem step (h : Agrees allow log m m') (n : Nat) (x : Step) (s : Scope)
    (ha : Allowed allow (Recording.step n m' log x s)) : x.layer n m s = x.layer n m' s := by
  cases x with
  | run g => simp only [Step.layer, Body.bind_apply, Body.run, h.parser g _ ha]
  | skip g => simp only [Step.layer, Body.bind_apply, Body.run, h.parser g _ ha]
  | attempt g => simp only [Step.layer, Body.bind_apply, Body.catching, Body.run, h.parser g _ ha]
  | peek g => simp only [Step.layer, Body.bind_apply, Body.peek, h.parser g _ ha]
  | ifMatch g yes no =>
    obtain ⟨ht, hr⟩ := ha.of_append
    refine bind (h.test ht) (fun found t ha => ?_) hr
    cases found with
    | some v => exact h.body yes _ ha
    | none => exact h.body no t ha
  | whileMatch g xs => exact h.turns g xs n s ha
  | _ => rfl

theorem steps (h : Agrees allow log m m') (n : Nat) : ∀ (xs : List Step) (s : Scope),
    Allowed allow (Recording.steps n m' log xs s) →
    Step.sequence n m xs s = Step.sequence n m' xs s
  | [], _, _ => rfl
  | x :: xs, s, ha => by
    obtain ⟨hx, hr⟩ := ha.of_append
    exact bind (h.step n x s hx.of_cons) (fun _ t ha => steps h n xs t ha) hr

theorem grammar (h : Agrees allow log m m') (rules : Rules) (n : Nat) (g : Grammar) (c : Cursor)
    (ha : Allowed allow (Recording.grammar rules n m' log g c)) :
    g.layer rules n m c = g.layer rules n m' c := by
  cases g with
  | nonEmpty g => simp only [Grammar.layer, Parser.refuseEmpty, h.parser g c ha]
  | map g f => simp only [Grammar.layer, Parser.map, h.parser g c ha]
  | convert g f => simp only [Grammar.layer, Parser.convert, h.parser g c ha]
  | and a b =>
    obtain ⟨hx, hr⟩ := ha.of_append
    simp only [Grammar.layer, Parser.map, Parser.and, h.parser a c hx]
    cases hm : m'.parser a c with
    | ok r =>
      rw [hm] at hr
      simp only [Outcome.ok_bind, h.parser b r.2 hr]
    | _ => rfl
  | many g => simp only [Grammar.layer, Parser.map, Parser.many, h.iterate g n c ha]
  | many1 g => simp only [Grammar.layer, Parser.map, Parser.many1, h.iterate g n c ha]
  | choice gs message => simp only [Grammar.layer, Parser.map, Parser.choice, h.attempts c gs ha]
  | alt gs message => simp only [Grammar.layer, Parser.alt, h.attempts c gs ha]
  | block xs result =>
    simp only [Grammar.layer, Parser.ofBody, Body.bind_apply, h.body xs _ ha]
  | ref name =>
    simp only [Recording.grammar] at ha
    simp only [Grammar.layer, Rules.parser]
    cases hg : rules name with
    | some g =>
      rw [hg] at ha
      exact h.parser g c ha
    | none => rfl
  | _ => rfl

end Agrees

theorem agrees_recording (allow : Grammar → Cursor → Bool) (rules : Rules) :
    ∀ n, Agrees allow (recording rules n) (restricted allow rules n) (meaning rules n)
  | 0 => ⟨fun _ _ _ => rfl, fun _ _ _ => rfl⟩
  | n + 1 => by
    have h := agrees_recording allow rules n
    refine ⟨fun g c ha => ?_, fun xs s ha => h.steps n xs s ha⟩
    -- the call itself is allowed, so the layer runs, and on allowed calls only
    obtain ⟨hg, hin⟩ := ha.of_around
    simp only [restricted, hg, if_true]
    exact h.grammar rules n g c hin

/-- The record leaves out no call: allowing the calls on record is allowing the run. -/
theorem restricted_eq {rules : Rules} {n : Nat} {g : Grammar} {c : Cursor}
    (h : Allowed allow (g.record rules n c)) :
    (restricted allow rules n).parser g c = (meaning rules n).parser g c :=
  (agrees_recording allow rules n).parser g c h

end

end Backtrack
