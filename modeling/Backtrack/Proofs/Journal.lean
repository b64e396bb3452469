/-
How a body moves its scope. Beside a body a journal is kept of what the body does with the scope, and
of where the scope stands before and after each act; without its journal the body is the one that runs
(`Step.erase_logged`, `erase_loggedBody`). Main statement: at every point of a body, also where a step
has failed and others are run after it, the scope stands at its first cursor or at the one that the
last successful run gave back (`scope_moves_on_success`).

What the journal says is checked entry by entry: each goes on from where the one before it stood, and
only a run that succeeded goes anywhere else (`Moves`).
-/
import Backtrack.Grammar.Meaning

namespace Backtrack

/-! ## Entries -/

/-- What a body does with its scope at a time. -/
inductive Act where
  /-- It runs a parser, which comes to this. -/
  | run (outcome : Outcome Cursor)
  /-- It does something else. -/
  | other

/-- An act of a body, and where the scope stands before and after it. -/
structure Entry where
  before : Cursor
  act : Act
  after : Cursor

/-- The cursor that a run gave back, if it succeeded. -/
def Entry.returned? (e : Entry) : Option Cursor :=
  match e.act with
  | .run (.ok d) => some d
  | _ => none

/-- The cursor that the last successful run among some entries gave back, or the given one if none
succeeded. -/
def lastReturned (start : Cursor) (entries : List Entry) : Cursor :=
  (entries.filterMap Entry.returned?).getLastD start

@[simp] theorem lastReturned_nil (c : Cursor) : lastReturned c [] = c := rfl

theorem lastReturned_cons (c : Cursor) (e : Entry) (es : List Entry) :
    lastReturned c (e :: es) = lastReturned (e.returned?.getD c) es := by
  unfold lastReturned
  rw [List.filterMap_cons]
  cases e.returned? with
  | none => rfl
  | some d => exact List.getLastD_cons

/-! ## Bodies with a journal -/

/-- A body that keeps a journal of what it does. -/
def Logged (α : Type) := Scope → (Outcome α × Scope) × List Entry

namespace Logged

variable {α β : Type}

/-- The body without its journal. -/
def erase (l : Logged α) : Body α := fun s => (l s).1

/-- What the body enters in its journal. -/
def journal (l : Logged α) (s : Scope) : List Entry := (l s).2

/-- A body that does one thing. -/
def act (what : Cursor → Act) (b : Body α) : Logged α := fun s =>
  (b s, [⟨s.cursor, what s.cursor, (b s).2.cursor⟩])

/-- Runs a parser. -/
def run (p : Parser α) : Logged α := act (fun c => .run ((·.2) <$> p c)) (Body.run p)

/-- Does anything but run a parser. -/
def other (b : Body α) : Logged α := act (fun _ => .other) b

protected def pure (a : α) : Logged α := fun s => (Body.pure a s, [])

protected def bind (l : Logged α) (k : α → Logged β) : Logged β := fun s =>
  (Body.bind l.erase (fun a => (k a).erase) s,
    l.journal s ++
      match l.erase s with
      | (.ok a, t) => (k a).journal t
      | _ => [])

instance : Monad Logged where
  pure := Logged.pure
  bind := Logged.bind

/-- The body with its error caught. -/
def catching (l : Logged α) : Logged (Except ParseError α) := fun s =>
  (Body.catching l.erase s, l.journal s)

/-- Repeats a body as long as a test before each turn finds something. -/
def whileSome : Nat → Logged (Option α) → Logged Unit → Logged Unit
  | 0, _, _ => fun s => ((.unfinished, s), [])
  | budget + 1, test, body => do
    match ← test with
    | some _ =>
      body
      whileSome budget test body
    | none => return ()

/-- Bodies in turn on one cursor, with one journal of them all. An error in one does not keep the next
from running. -/
def inTurn : List (Logged Unit) → Cursor → List Entry
  | [], _ => []
  | l :: ls, c => l.journal (.enter c) ++ inTurn ls (l.erase (.enter c)).2.cursor

end Logged

/-! ## Steps with a journal -/

/-- What a step does, with a journal, given the steps in it with theirs. -/
def Step.logged (budget : Nat) (m : Meaning) (inner : List Step → Logged Unit) :
    Step → Logged Unit
  | .run g => do .other (Body.push (← .run (m.parser g)))
  | .skip g => do
    let _ ← .run (m.parser g)
    return ()
  | .attempt g => do
    match ← Logged.catching (.run (m.parser g)) with
    | .ok v => .other (Body.push v)
    | .error e => .other (Body.push (.caught e))
  | .peek g => do .other (Body.push (← .other (Body.peek (m.parser g))))
  | .state => do .other (Body.push (Value.ofCursor (← .other Body.cursor)))
  | .fail expected => .other (Body.fail expected)
  | .requireEnd expected => do
    if (← .other Body.cursor).atEnd then return () else .other (Body.fail expected)
  | .abort reason => .other (Body.raise (.aborted reason))
  | .ifMatch g yes no => do
    match ← .run (Parser.optional (m.parser g)) with
    | some v =>
      .other (Body.push v)
      inner yes
    | none => inner no
  | .whileMatch g steps =>
    .whileSome budget (.run (Parser.choice [m.parser g] none)) (inner steps)

/-- Steps one after the other, with a journal. -/
def Step.loggedAll (budget : Nat) (m : Meaning) (inner : List Step → Logged Unit) :
    List Step → Logged Unit
  | [] => return ()
  | step :: steps => do
    step.logged budget m inner
    Step.loggedAll budget m inner steps

/-- The body of some steps within a budget, with a journal. -/
def loggedBody (rules : Rules) : Nat → List Step → Logged Unit
  | 0, _ => fun s => ((.unfinished, s), [])
  | budget + 1, steps =>
    Step.loggedAll budget (meaning rules budget) (loggedBody rules budget) steps

/-! ## The journal can be left out -/

namespace Logged

variable {α β : Type}

theorem erase_bind {l : Logged α} {b : Body α} {k : α → Logged β} {k' : α → Body β}
    (hl : l.erase = b) (hk : ∀ a, (k a).erase = k' a) : (l >>= k).erase = b >>= k' := by
  obtain rfl : (fun a => (k a).erase) = k' := funext hk
  subst hl
  rfl

theorem erase_whileSome {test : Logged (Option α)} {body : Logged Unit} {test' : Body (Option α)}
    {body' : Body Unit} (ht : test.erase = test') (hb : body.erase = body') :
    ∀ n, (whileSome n test body).erase = Body.whileSome n test' body'
  | 0 => rfl
  | n + 1 => by
    refine erase_bind ht fun found => ?_
    cases found with
    | some a => exact erase_bind hb fun _ => erase_whileSome ht hb n
    | none => rfl

end Logged

theorem Step.erase_logged {budget : Nat} {m : Meaning} {inner : List Step → Logged Unit}
    (hinner : ∀ steps, (inner steps).erase = m.body steps) (step : Step) :
    (step.logged budget m inner).erase = step.layer budget m := by
  cases step with
  | attempt g =>
    refine Logged.erase_bind rfl fun r => ?_
    cases r <;> rfl
  | requireEnd expected =>
    refine Logged.erase_bind rfl fun c => ?_
    split <;> rfl
  | ifMatch g yes no =>
    refine Logged.erase_bind rfl fun found => ?_
    cases found with
    | some v => exact Logged.erase_bind rfl fun _ => hinner yes
    | none => exact hinner no
  | whileMatch g steps => exact Logged.erase_whileSome rfl (hinner steps) budget
  | _ => rfl

theorem Step.erase_loggedAll {budget : Nat} {m : Meaning} {inner : List Step → Logged Unit}
    (hinner : ∀ steps, (inner steps).erase = m.body steps) (steps : List Step) :
    (Step.loggedAll budget m inner steps).erase = Step.sequence budget m steps := by
  induction steps with
  | nil => rfl
  | cons step steps ih => exact Logged.erase_bind (step.erase_logged hinner) fun _ => ih

/-- Without its journal the body is what the steps mean. -/
theorem erase_loggedBody (rules : Rules) : ∀ (n : Nat) (steps : List Step),
    (loggedBody rules n steps).erase = (meaning rules n).body steps
  | 0, _ => rfl
  | n + 1, steps => Step.erase_loggedAll (erase_loggedBody rules n) steps

/-! ## What entries say -/

/-- Entries that lead from one cursor to another: each goes on from where the one before it stood, and
stays there unless it is a run that succeeded. -/
inductive Moves : Cursor → List Entry → Cursor → Prop where
  | nil (c : Cursor) : Moves c [] c
  | cons {c d : Cursor} {e : Entry} {es : List Entry} : e.before = c →
      e.after = e.returned?.getD c → Moves e.after es d → Moves c (e :: es) d

namespace Moves

variable {c d : Cursor} {es es' : List Entry}

theorem append {e : Cursor} (h : Moves c es d) (h' : Moves d es' e) : Moves c (es ++ es') e := by
  induction h with
  | nil c => exact h'
  | cons hbefore hafter _ ih => exact .cons hbefore hafter (ih h')

theorem exists_of_append (h : Moves c (es ++ es') d) : ∃ m, Moves c es m ∧ Moves m es' d := by
  induction es generalizing c with
  | nil => exact ⟨c, .nil c, h⟩
  | cons e es ih =>
    cases h with
    | cons hbefore hafter h =>
      obtain ⟨m, hm, hm'⟩ := ih h
      exact ⟨m, .cons hbefore hafter hm, hm'⟩

/-- Entries lead to where the last successful run among them has ended. -/
theorem lastReturned_eq (h : Moves c es d) : lastReturned c es = d := by
  induction h with
  | nil c => exact lastReturned_nil c
  | cons _ hafter _ ih => rw [lastReturned_cons, ← hafter, ih]

end Moves

/-- The entries tell at every point where the scope stands: at the cursor that the last successful run
gave back, or where it stood at first. -/
structure Tells (c : Cursor) (entries : List Entry) (d : Cursor) : Prop where
  before_eq : ∀ es e es', entries = es ++ e :: es' → e.before = lastReturned c es
  after_eq : ∀ es e es', entries = es ++ e :: es' → e.after = lastReturned c (es ++ [e])
  last_eq : d = lastReturned c entries
  unmoved : ∀ e ∈ entries, e.returned? = none → e.after = e.before

theorem Moves.tells {c d : Cursor} {es : List Entry} (h : Moves c es d) : Tells c es d := by
  constructor
  · rintro es e es' rfl
    -- where the entries in front lead is where this one starts
    obtain ⟨m, hm, he⟩ := h.exists_of_append
    cases he with
    | cons hbefore _ _ => rw [hbefore, hm.lastReturned_eq]
  · rintro es e es' rfl
    obtain ⟨m, hm, he⟩ := h.exists_of_append
    cases he with
    | cons hbefore hafter _ => rw [(hm.append (.cons hbefore hafter (.nil _))).lastReturned_eq]
  · exact h.lastReturned_eq.symm
  · intro e he hnone
    obtain ⟨es, es', rfl⟩ := List.append_of_mem he
    obtain ⟨m, -, he⟩ := h.exists_of_append
    cases he with
    | cons hbefore hafter _ => rw [hafter, hnone, hbefore, Option.getD_none]

/-! ## What bodies enter -/

namespace Logged

variable {α β : Type}

/-- What the body enters in its journal leads from where the scope stands to where the body leaves it. -/
def Sound (l : Logged α) : Prop :=
  ∀ s, Moves s.cursor (l.journal s) (l.erase s).2.cursor

theorem sound_pure (a : α) : Sound (pure a : Logged α) := fun s => .nil s.cursor

theorem Sound.bind {l : Logged α} {k : α → Logged β} (hl : Sound l) (hk : ∀ a, Sound (k a)) :
    Sound (l >>= k) := by
  intro s
  have hs := hl s
  show Moves s.cursor (l.journal s ++ _) (Body.bind l.erase (fun a => (k a).erase) s).2.cursor
  unfold Body.bind
  -- nothing is entered behind an error, and the scope stays as it was left
  rcases hr : l.erase s with ⟨_ | _ | _, t⟩ <;> rw [hr] at hs
  · exact hs.append (hk _ t)
  · exact hs.append (.nil t.cursor)
  · exact hs.append (.nil t.cursor)

theorem sound_run (p : Parser α) : Sound (run p) := by
  intro s
  refine .cons rfl ?_ (.nil _)
  show (Body.run p s).2.cursor = (Entry.returned? ⟨_, .run ((·.2) <$> p s.cursor), _⟩).getD s.cursor
  unfold Body.run
  cases p s.cursor <;> rfl

theorem sound_other {b : Body α} (hb : ∀ s, (b s).2.cursor = s.cursor) : Sound (other b) :=
  fun s => .cons rfl (hb s) (.nil _)

/-- An error that is caught leaves the scope as it was left. -/
theorem catching_scope (b : Body α) (s : Scope) : (Body.catching b s).2 = (b s).2 := by
  unfold Body.catching
  rcases b s with ⟨_ | _ | _, t⟩ <;> rfl

theorem Sound.catching {l : Logged α} (hl : Sound l) : Sound (catching l) := by
  intro s
  show Moves s.cursor (l.journal s) (Body.catching l.erase s).2.cursor
  rw [catching_scope]
  exact hl s

theorem Sound.whileSome {test : Logged (Option α)} {body : Logged Unit} (ht : Sound test)
    (hb : Sound body) : ∀ n, Sound (whileSome n test body)
  | 0 => fun s => .nil s.cursor
  | n + 1 => by
    refine ht.bind fun found => ?_
    cases found with
    | some a => exact hb.bind fun _ => Sound.whileSome ht hb n
    | none => exact sound_pure ()

/-- Bodies in turn go on from where the one before has left the scope. -/
theorem moves_inTurn : ∀ {ls : List (Logged Unit)}, (∀ l ∈ ls, Sound l) → ∀ c,
    Moves c (inTurn ls c) (Body.inTurn (ls.map erase) c).2
  | [], _, c => .nil c
  | l :: _, h, c =>
    (h l List.mem_cons_self (.enter c)).append
      (moves_inTurn (fun l hl => h l (List.mem_cons_of_mem _ hl)) _)

end Logged

/-! ## What steps enter -/

open Logged

/-- The step looks at its scope or ends its body, and runs nothing on the scope. -/
def Step.looks : Step → Bool
  | .peek _ | .state | .fail _ | .requireEnd _ | .abort _ => true
  | _ => false

theorem Step.cursor_of_looks {budget : Nat} {m : Meaning} {step : Step} (h : step.looks = true)
    (s : Scope) : (step.layer budget m s).2.cursor = s.cursor := by
  cases step with
  | peek g =>
    rw [layer, Body.bind_apply]
    unfold Body.peek
    cases m.parser g s.cursor <;> rfl
  | requireEnd expected =>
    rw [layer, Body.bind_apply]
    show ((if _ then _ else _ : Body Unit) s).2.cursor = _
    split <;> rfl
  | state | fail | abort => rfl
  | _ => cases h

theorem sound_push (v : Value) : Sound (other (Body.push v)) := sound_other fun _ => rfl

theorem Step.sound_logged {budget : Nat} {m : Meaning} {inner : List Step → Logged Unit}
    (hinner : ∀ steps, Sound (inner steps)) (step : Step) :
    Sound (step.logged budget m inner) := by
  cases step with
  | run g => exact (sound_run _).bind sound_push
  | skip g => exact (sound_run _).bind fun _ => sound_pure ()
  | attempt g =>
    -- an error that is caught has been entered as a run that did not succeed
    refine (sound_run _).catching.bind fun r => ?_
    cases r with
    | ok v => exact sound_push v
    | error e => exact sound_push _
  | peek g => exact (sound_other fun _ => rfl).bind sound_push
  | state => exact (sound_other fun _ => rfl).bind fun c => sound_push _
  | fail expected => exact sound_other fun _ => rfl
  | requireEnd expected =>
    refine (sound_other fun _ => rfl).bind fun c => ?_
    split
    · exact sound_pure ()
    · exact sound_other fun _ => rfl
  | abort reason => exact sound_other fun _ => rfl
  | ifMatch g yes no =>
    refine (sound_run _).bind fun found => ?_
    cases found with
    | some v => exact (sound_push v).bind fun _ => hinner yes
    | none => exact hinner no
  | whileMatch g steps => exact (sound_run _).whileSome (hinner steps) budget

theorem Step.sound_loggedAll {budget : Nat} {m : Meaning} {inner : List Step → Logged Unit}
    (hinner : ∀ steps, Sound (inner steps)) (steps : List Step) :
    Sound (Step.loggedAll budget m inner steps) := by
  induction steps with
  | nil => exact sound_pure ()
  | cons step steps ih => exact (step.sound_logged hinner).bind fun _ => ih

theorem sound_loggedBody (rules : Rules) : ∀ (n : Nat) (steps : List Step),
    Sound (loggedBody rules n steps)
  | 0, _ => fun s => .nil s.cursor
  | n + 1, steps => Step.sound_loggedAll (sound_loggedBody rules n) steps

/-! ## Scopes -/

/-- A step within a budget, with a journal. -/
def Step.journaled (rules : Rules) (n : Nat) : Step → Logged Unit :=
  Step.logged n (meaning rules n) (loggedBody rules n)

theorem erase_journaled (rules : Rules) (n : Nat) (steps : List Step) :
    (steps.map (Step.journaled rules n)).map erase = steps.map (Step.layer n (meaning rules n)) := by
  rw [List.map_map]
  exact List.map_congr_left fun step _ => step.erase_logged (erase_loggedBody rules n)

theorem Body.run_of_not_ok {α : Type} {p : Parser α} {s : Scope} (h : ∀ r, p s.cursor ≠ .ok r) :
    (Body.run p s).2 = s := by
  unfold Body.run
  cases hp : p s.cursor with
  | ok r => exact absurd hp (h r)
  | error e => rfl
  | unfinished => rfl

theorem Parser.ofBody_eq_ok_iff {α : Type} {b : Body α} {c d : Cursor} {v : α} :
    Parser.ofBody b c = .ok (v, d) ↔ ∃ t, b (.enter c) = (.ok v, t) ∧ t.cursor = d := by
  unfold Parser.ofBody
  rcases b (.enter c) with ⟨_ | _ | _, t⟩
  · constructor
    · rintro ⟨⟩
      exact ⟨t, rfl, rfl⟩
    · rintro ⟨_, ⟨⟩, rfl⟩
      rfl
  · simp
  · simp

/-- The value is read off the scope: this succeeds, and does nothing to the scope. -/
theorem Body.exists_result (element : Option Nat) (s : Scope) :
    ∃ v, Body.result element s = (.ok v, s) := by
  cases element with
  | none => exact ⟨_, rfl⟩
  | some i => exact ⟨_, rfl⟩

theorem block_eq_ok_iff {rules : Rules} {n : Nat} {steps : List Step} {result : Option Nat}
    {c d : Cursor} {v : Value} :
    (meaning rules (n + 1)).parser (.block steps result) c = .ok (v, d) ↔
      ∃ t, (meaning rules n).body steps (.enter c) = (.ok (), t) ∧
        Body.result result t = (.ok v, t) ∧ t.cursor = d := by
  show Parser.ofBody (do (meaning rules n).body steps; Body.result result) c = _ ↔ _
  rw [Parser.ofBody_eq_ok_iff]
  constructor
  · rintro ⟨t, h, rfl⟩
    obtain ⟨⟨⟩, u, hu, h⟩ := Body.bind_eq_ok_iff.1 h
    -- reading off the value leaves the scope where the steps left it
    obtain ⟨w, hw⟩ := Body.exists_result result u
    obtain rfl : u = t := congrArg Prod.snd (hw.symm.trans h)
    exact ⟨u, hu, h, rfl⟩
  · rintro ⟨t, ht, hv, rfl⟩
    exact ⟨t, Body.bind_eq_ok_iff.2 ⟨(), t, ht, hv⟩, rfl⟩

/-- A scope moves only where a run succeeds, and to where that run has ended: at every point of a body,
and of steps that are run in turn whatever the one before came to. A parser made of a body succeeds
exactly if the body does, and ends where the scope does. -/
theorem scope_moves_on_success (rules : Rules) (n : Nat) :
    (∀ (steps : List Step) (s : Scope),
      (loggedBody rules n steps).erase s = (meaning rules n).body steps s ∧
      Tells s.cursor ((loggedBody rules n steps).journal s)
        ((meaning rules n).body steps s).2.cursor) ∧
    (∀ (steps : List Step) (c : Cursor),
      (steps.map (Step.journaled rules n)).map erase = steps.map (Step.layer n (meaning rules n)) ∧
      Tells c (Logged.inTurn (steps.map (Step.journaled rules n)) c)
        (Body.inTurn (steps.map (Step.layer n (meaning rules n))) c).2) ∧
    (∀ (α : Type) (p : Parser α) (s : Scope), (∀ r, p s.cursor ≠ .ok r) →
      (Body.run p s).2 = s) ∧
    (∀ step : Step, step.looks = true → ∀ s : Scope,
      (step.layer n (meaning rules n) s).2.cursor = s.cursor) ∧
    ∀ (steps : List Step) (result : Option Nat) (c : Cursor),
      ((∃ r, (meaning rules (n + 1)).parser (.block steps result) c = .ok r) ↔
        ((meaning rules n).body steps (.enter c)).1 = .ok ()) ∧
      ∀ v d, (meaning rules (n + 1)).parser (.block steps result) c = .ok (v, d) →
        d = lastReturned c ((loggedBody rules n steps).journal (.enter c)) := by
  have hbody : ∀ steps s, Tells s.cursor ((loggedBody rules n steps).journal s)
      ((meaning rules n).body steps s).2.cursor := by
    intro steps s
    rw [← erase_loggedBody]
    exact (sound_loggedBody rules n steps s).tells
  refine ⟨fun steps s => ⟨?_, hbody steps s⟩, fun steps c => ⟨erase_journaled rules n steps, ?_⟩,
    fun _ _ _ => Body.run_of_not_ok, fun step h => Step.cursor_of_looks h,
    fun steps result c => ⟨⟨?_, ?_⟩, ?_⟩⟩
  · rw [erase_loggedBody]
  · rw [← erase_journaled]
    refine (moves_inTurn (fun l hl => ?_) c).tells
    obtain ⟨step, -, rfl⟩ := List.mem_map.1 hl
    exact step.sound_logged (sound_loggedBody rules n)
  · rintro ⟨⟨v, d⟩, h⟩
    obtain ⟨t, ht, -, -⟩ := block_eq_ok_iff.1 h
    rw [ht]
  · intro h
    -- the steps have succeeded, and the value can always be read off
    obtain ⟨v, hv⟩ := Body.exists_result result ((meaning rules n).body steps (.enter c)).2
    exact ⟨(v, _), block_eq_ok_iff.2 ⟨_, Prod.ext h rfl, hv, rfl⟩⟩
  · intro v d h
    obtain ⟨t, ht, -, rfl⟩ := block_eq_ok_iff.1 h
    have := (hbody steps (.enter c)).last_eq
    rwa [ht] at this

/-- A step that fails after it has read something and has changed the settings, between steps that
succeed. -/
def stumblingSteps : List Step :=
  [.run (.literal "a"),
    .run (.and (.configure ⟨.stop, some 3⟩) (.and (.literal "b") (.literal "x"))),
    .peek (.literal "b"),
    .whileMatch (.literal "b") [.attempt (.literal "d"), .run (.literal "c")],
    .requireEnd "end"]

theorem scope_moves_on_success_stumbling :
    (Body.inTurn (stumblingSteps.map (Step.layer 6 (meaning (fun _ => none) 6)))
      (.start "abcbcb".toList)).2 = ⟨"abcbcb".toList, 6, .default⟩ :=
  (((scope_moves_on_success (fun _ => none) 6).2.1 stumblingSteps _).2.last_eq).trans rfl

end Backtrack
