/-
The record of a run that has returned is complete: a larger budget adds no event to it. Main
statement: if a run returns within a budget, its record within any larger budget is the same
(`record_eq_of_returned`), so the run calls finitely many parsers, and these are all on record.
-/
import Backtrack.Proofs.Record
import Backtrack.Proofs.Settling

namespace Backtrack

/-! ## Layers of records -/

/-- The second log is that of a larger budget, and it is the first one where that is complete. -/
structure Completes (m m' : Meaning) (log log' : Recording) : Prop where
  le : m.Le m'
  parser : ∀ g c, m.parser g c ≠ .unfinished → log'.parser g c = log.parser g c
  body : ∀ xs s, (m.body xs s).1 ≠ .unfinished → log'.body xs s = log.body xs s

theorem Event.around_eq_of_le {g : Grammar} {p q : Parser Value} {inside inside' : Cursor → List Event}
    {c : Cursor} (h : Parser.Le p q) (hp : p c ≠ .unfinished) (hin : inside' c = inside c) :
    Event.around g q inside' c = Event.around g p inside c := by
  rw [Event.around, Event.around, hin, Outcome.eq_of_le (h c) hp]

theorem Body.thenRecord_eq_of_le {α : Type} {b b' : Body α} {s : Scope}
    {k k' : α → Scope → List Event} (h : Body.Le b b') (hb : (b s).1 ≠ .unfinished)
    (hk : ∀ a t, b s = (.ok a, t) → k' a t = k a t) : b'.thenRecord s k' = b.thenRecord s k := by
  unfold Body.thenRecord
  rw [Body.eq_of_le h hb]
  split
  · next a t ht => exact hk a t ht
  · rfl

namespace Completes

variable {m m' : Meaning} {log log' : Recording}

theorem attempts (h : Completes m m' log log') {c : Cursor} : ∀ {gs : List Grammar},
    Parser.attempts (gs.map m.parser) c ≠ .unfinished →
    Recording.attempts m' log' gs c = Recording.attempts m log gs c
  | [], _ => rfl
  | g :: gs, hr => by
    rw [List.map_cons] at hr
    have hg : m.parser g c ≠ .unfinished := fun hg => hr (Parser.attempts_cons_unfinished hg)
    unfold Recording.attempts
    rw [h.parser g c hg, Outcome.eq_of_le (h.le.parser g c) hg]
    split
    · next f hf =>
      -- the next candidate is run only after a failure of this one
      rw [Parser.attempts_cons_failure hf] at hr
      rw [h.attempts (Outcome.returned_of_bind hr).1]
    · rfl

theorem iterate (h : Completes m m' log log') {g : Grammar} : ∀ {n n' : Nat}, n ≤ n' →
    ∀ {c : Cursor}, Parser.iterate n (m.parser g) c ≠ .unfinished →
      Recording.iterate m' log' g n' c = Recording.iterate m log g n c
  | 0, _, _, _, hr => absurd rfl hr
  | n + 1, n' + 1, hn, c, hr => by
    have hg : m.parser g c ≠ .unfinished := fun hg => hr (Parser.iterate_succ_unfinished n hg)
    unfold Recording.iterate
    rw [h.parser g c hg, Outcome.eq_of_le (h.le.parser g c) hg]
    cases hx : m.parser g c with
    | ok r =>
      simp only [Outcome.thenRecord]
      split
      · rfl
      · next hd =>
        -- the loop went on and came back, so the rest of it did
        rw [Parser.iterate_succ_moved n hx hd] at hr
        rw [h.iterate (Nat.le_of_succ_le_succ hn) (Outcome.returned_of_bind hr).1]
    | error e => rfl
    | unfinished => rfl

theorem test (h : Completes m m' log log') {g : Grammar} {c : Cursor}
    (hr : Parser.optional (m.parser g) c ≠ .unfinished) :
    Recording.test m' log' g c = Recording.test m log g c := by
  have hattempts := (Outcome.returned_of_bind hr).1
  have hg : m.parser g c ≠ .unfinished :=
    fun hg => hattempts (Parser.attempts_cons_unfinished hg)
  refine Event.around_eq_of_le ((h.le.parser g).optional.map _) (fun hu => ?_) (h.parser g c hg)
  cases hx : Parser.optional (m.parser g) c with
  | unfinished => exact hr hx
  | _ =>
    rw [Parser.map, hx] at hu
    cases hu

theorem turns (h : Completes m m' log log') {g : Grammar} {xs : List Step} : ∀ {n n' : Nat},
    n ≤ n' → ∀ {s : Scope},
      (Body.whileSome n (Body.run (Parser.optional (m.parser g))) (m.body xs) s).1 ≠ .unfinished →
      Recording.turns m' log' g xs n' s = Recording.turns m log g xs n s
  | 0, _, _, _, hr => absurd rfl hr
  | n + 1, n' + 1, hn, s, hr => by
    obtain ⟨htest, hr⟩ := Body.returned_of_bind hr
    unfold Recording.turns
    rw [h.test (Body.returned_of_run htest)]
    congr 1
    refine Body.thenRecord_eq_of_le (.run (h.le.parser g).optional) htest fun found t ht => ?_
    have hr := hr found t ht
    cases found with
    | none => rfl
    | some v =>
      obtain ⟨hbody, hr⟩ := Body.returned_of_bind hr
      simp only
      rw [h.body xs t hbody]
      congr 1
      exact Body.thenRecord_eq_of_le (h.le.body xs) hbody fun _ u hu =>
        h.turns (Nat.le_of_succ_le_succ hn) (hr _ u hu)

theorem step (h : Completes m m' log log') {n n' : Nat} (hn : n ≤ n') {x : Step} {s : Scope}
    (hr : (x.layer n m s).1 ≠ .unfinished) :
    Recording.step n' m' log' x s = Recording.step n m log x s := by
  cases x with
  | run g | skip g =>
    exact h.parser g _ (Body.returned_of_run (Body.returned_of_bind hr).1)
  | attempt g =>
    refine h.parser g _ fun hu => (Body.returned_of_bind hr).1 ?_
    simp only [Body.catching, Body.run, hu]
  | peek g =>
    refine h.parser g _ fun hu => (Body.returned_of_bind hr).1 ?_
    simp only [Body.peek, hu]
    rfl
  | ifMatch g yes no =>
    obtain ⟨htest, hr⟩ := Body.returned_of_bind hr
    simp only [Recording.step, h.test (Body.returned_of_run htest)]
    congr 1
    refine Body.thenRecord_eq_of_le (.run (h.le.parser g).optional) htest fun found t ht => ?_
    have hr := hr found t ht
    cases found with
    | some v => exact h.body yes _ hr
    | none => exact h.body no t hr
  | whileMatch g xs => exact h.turns hn hr
  | _ => rfl

theorem steps (h : Completes m m' log log') {n n' : Nat} (hn : n ≤ n') : ∀ {xs : List Step}
    {s : Scope}, (Step.sequence n m xs s).1 ≠ .unfinished →
      Recording.steps n' m' log' xs s = Recording.steps n m log xs s
  | [], _, _ => rfl
  | x :: xs, s, hr => by
    obtain ⟨hx, hr⟩ := Body.returned_of_bind hr
    unfold Recording.steps
    rw [h.step hn hx]
    congr 1
    exact Body.thenRecord_eq_of_le (x.layer_mono hn h.le) hx fun _ t ht => h.steps hn (hr _ t ht)

theorem grammar (h : Completes m m' log log') {n n' : Nat} (hn : n ≤ n') {rules : Rules}
    {g : Grammar} {c : Cursor} (hr : g.layer rules n m c ≠ .unfinished) :
    Recording.grammar rules n' m' log' g c = Recording.grammar rules n m log g c := by
  cases g with
  | nonEmpty g | map g f | convert g f => exact h.parser g c (Outcome.returned_of_bind hr).1
  | and a b =>
    have hand := (Outcome.returned_of_bind hr).1
    obtain ⟨ha, hb⟩ := Outcome.returned_of_bind hand
    simp only [Recording.grammar]
    rw [h.parser a c ha, Outcome.eq_of_le (h.le.parser a c) ha]
    cases hx : m.parser a c with
    | ok r =>
      simp only [Outcome.thenRecord]
      rw [h.parser b r.2 (Outcome.returned_of_bind (hb r hx)).1]
    | error e => rfl
    | unfinished => rfl
  | many g | many1 g =>
    have hmany := (Outcome.returned_of_bind hr).1
    exact h.iterate hn (Outcome.returned_of_bind hmany).1
  | choice gs message =>
    have hchoice := (Outcome.returned_of_bind hr).1
    exact h.attempts (Outcome.returned_of_bind hchoice).1
  | alt gs message => exact h.attempts (Outcome.returned_of_bind hr).1
  | block xs result =>
    exact h.body xs _ (Body.returned_of_bind (Parser.returned_of_ofBody hr)).1
  | ref name =>
    simp only [Grammar.layer, Rules.parser] at hr
    simp only [Recording.grammar]
    cases hg : rules name with
    | some g =>
      rw [hg] at hr
      exact h.parser g c hr
    | none => rfl
  | _ => rfl

end Completes

theorem completes_recording (rules : Rules) : ∀ {n n' : Nat}, n ≤ n' →
    Completes (meaning rules n) (meaning rules n') (recording rules n) (recording rules n')
  | 0, _, hn => ⟨meaning_mono rules hn, fun _ _ hr => absurd rfl hr, fun _ _ hr => absurd rfl hr⟩
  | n + 1, n' + 1, hn => by
    have hle := Nat.le_of_succ_le_succ hn
    have h := completes_recording rules hle
    have hmono := meaning_mono rules hn
    refine ⟨hmono, fun g c hr => ?_, fun xs s hr => h.steps hle hr⟩
    exact Event.around_eq_of_le (hmono.parser g) hr (h.grammar hle hr)

/-- The record of a run that has returned is complete. -/
theorem record_eq_of_returned {rules : Rules} {n n' : Nat} (hn : n ≤ n') {g : Grammar} {c : Cursor}
    (h : (meaning rules n).parser g c ≠ .unfinished) :
    g.record rules n' c = g.record rules n c :=
  (completes_recording rules hn).parser g c h

end Backtrack
