/-
Whatever the rules of parsing expressions derive, a run comes to. Main statement: the run of a
grammar ends at a position exactly if the rules derive that its expression succeeds there, it fails
exactly if they derive that the expression fails, and any other end of it is that of an idle
iteration, of which the rules derive nothing (`returns_iff_derives`).

The induction is on the number of rules in a derivation, since the expression of a grammar need not
have its own form: the derivation of one iteration and those after it is one of a sequence.
-/
import Backtrack.Proofs.Peg.Sound
import Backtrack.Proofs.Settling

namespace Backtrack

open Peg (Matches Derives)

/-! ## Answers -/

/-- The outcome is a success at a position, or a failure. -/
def Outcome.Shows {α : Type} (x : Outcome (α × Cursor)) : Option Nat → Prop
  | some j => ∃ a d, x = .ok (a, d) ∧ d.position = j
  | none => ∃ f, x = .error (.failure f)

/-- The outcomes settle at an answer. -/
def Responds {α : Type} (f : Nat → Outcome α) : Prop := ∃ x, Settles f x ∧ x.Answers

section

variable {α β γ : Type} {f l : Nat → Outcome α}

theorem responds_const {x : Outcome α} (hx : x.Answers) : Responds fun _ => x :=
  ⟨x, settles_const x, hx⟩

theorem Responds.congr {g : Nat → γ} {y : γ} (hg : Settles g y) (h : ∀ n, g n = y → f n = l n)
    (hl : Responds l) : Responds f := by
  obtain ⟨x, hx, ha⟩ := hl
  exact ⟨x, hg.congr h hx, ha⟩

/-- A computation that answers, and another one that does so whatever the first one gave. -/
theorem Responds.bind (hf : Responds f) {k : α → Outcome β} (hk : ∀ a, (k a).Answers) :
    Responds fun n => f n >>= k := by
  obtain ⟨x, hx, ha⟩ := hf
  refine .congr hx (fun n hn => by rw [hn]) (responds_const ?_)
  rcases ha with ⟨a, rfl⟩ | ⟨e, rfl⟩
  · exact hk a
  · exact .inr ⟨e, rfl⟩

end

/-- An answer that is explained shows what is derived. -/
theorem Outcome.Answers.shows {α : Type} {rules : Rules} {e : Peg} {c : Cursor}
    {x : Outcome (α × Cursor)} {o : Option Nat} (hx : x.Answers) (h : e.Explains rules c x)
    (ho : Matches rules.peg c.source e c.position o) : x.Shows o := by
  rcases hx with ⟨r, rfl⟩ | ⟨f, rfl⟩
  · rw [ho.functional h.2]
    exact ⟨r.1, r.2, rfl, rfl⟩
  · have hf : Matches rules.peg c.source e c.position none := h
    rw [ho.functional hf]
    exact ⟨f, rfl⟩

/-- All runs answer of which fewer than a number of rules derive something. -/
def AnswersBelow (rules : Rules) (m : Nat) : Prop :=
  ∀ k, k < m → ∀ (g : Grammar) (e : Peg) (c : Cursor) (o : Option Nat), g.peg = some e →
    c.Strict → Derives rules.peg c.source e c.position k o →
      Responds fun n => (meaning rules n).parser g c

section

variable {rules : Rules} {g : Grammar} {e : Peg} {c : Cursor} {m k : Nat}

theorem Grammar.ComesTo.explains (hr : rules.IsPeg) (he : g.peg = some e) (hc : c.Strict)
    {x : Outcome (Value × Cursor)} (h : g.ComesTo rules c x) : e.Explains rules c x := by
  obtain ⟨n, h⟩ := h
  rw [← h n (Nat.le_refl n)]
  exact (meaning_obeys hr n).parser g e he c hc

/-- A success that is derived in fewer rules is one of the run. -/
theorem AnswersBelow.success (hr : rules.IsPeg) (h : AnswersBelow rules m) (hk : k < m)
    (he : g.peg = some e) (hc : c.Strict) {j : Nat}
    (hd : Derives rules.peg c.source e c.position k (some j)) :
    ∃ v d, g.ComesTo rules c (.ok (v, d)) ∧ d.Follows c ∧ d.position = j := by
  obtain ⟨x, hx, ha⟩ : ∃ x, g.ComesTo rules c x ∧ x.Answers := h k hk g e c _ he hc hd
  have hex := hx.explains hr he hc
  obtain ⟨v, d, rfl, rfl⟩ := ha.shows hex ⟨k, hd⟩
  exact ⟨v, d, hx, hex.1, rfl⟩

theorem AnswersBelow.failure (hr : rules.IsPeg) (h : AnswersBelow rules m) (hk : k < m)
    (he : g.peg = some e) (hc : c.Strict)
    (hd : Derives rules.peg c.source e c.position k none) :
    ∃ f, g.ComesTo rules c (.error (.failure f)) := by
  obtain ⟨x, hx, ha⟩ : ∃ x, g.ComesTo rules c x ∧ x.Answers := h k hk g e c _ he hc hd
  obtain ⟨f, rfl⟩ := ha.shows (hx.explains hr he hc) ⟨k, hd⟩
  exact ⟨f, hx⟩

end

/-! ## Each way to combine -/

section

variable {rules : Rules} {g : Grammar} {gs : List Grammar} {x y : Peg} {c : Cursor} {m : Nat}
  {o : Option Nat}

theorem Responds.map {α β : Type} {p : Nat → Parser α} (h : Responds fun n => p n c) (f : α → β) :
    Responds fun n => (p n).map f c :=
  h.bind fun _ => .inl ⟨_, rfl⟩

theorem responds_and {a b : Grammar} (hr : rules.IsPeg) (ih : AnswersBelow rules m)
    (hc : c.Strict) (hx : a.peg = some x) (hy : b.peg = some y)
    (hd : Derives rules.peg c.source (.seq x y) c.position m o) :
    Responds fun n => ((meaning rules n).parser a).and ((meaning rules n).parser b) c := by
  cases hd with
  | seq ha hb =>
    obtain ⟨v, d, hrun, hd, rfl⟩ := ih.success hr (by omega) hx hc ha
    rw [← hd.source] at hb
    have hans := ih _ (by omega) b y d o hy (hc.of_follows hd) hb
    -- once the first grammar has come to its end, only the second is left
    refine .congr hrun (fun n hn => ?_) (hans.bind fun r => .inl ⟨((v, r.1), r.2), rfl⟩)
    simp only [Parser.and, hn, Outcome.ok_bind, Outcome.pure_eq]
  | seqFail ha =>
    obtain ⟨f, hrun⟩ := ih.failure hr (by omega) hx hc ha
    refine .congr hrun (fun n hn => ?_) (responds_const (.inr ⟨f, rfl⟩))
    simp only [Parser.and, hn, Outcome.error_bind]

/-! ## Repetition -/

theorem settles_iterate (hr : rules.IsPeg) (ih : AnswersBelow rules m) (hx : g.peg = some x) :
    ∀ (k : Nat) {c : Cursor} {o : Option Nat}, k ≤ m → c.Strict →
      Derives rules.peg c.source (.star x) c.position k o →
      ∃ r, Settles (fun n => Parser.iterate n ((meaning rules n).parser g) c) (.ok r) := by
  intro k
  induction k using Nat.strongRecOn with
  | _ k ihk =>
    intro c o hk hc hd
    cases hd with
    | more ha hs =>
      obtain ⟨v, d, hrun, hd, rfl⟩ := ih.success hr (by omega) hx hc ha
      rw [← hd.source] at ha hs
      -- an iteration that stood still would be derived again and again
      have hmoved : d.position ≠ c.position := by
        intro heq
        rw [← heq] at ha
        exact Derives.not_star_of_idle ha hs
      -- the rest of the repetition takes fewer rules
      obtain ⟨r, hrest⟩ := ihk _ (by omega) (by omega) (hc.of_follows hd) hs
      have hr : Outcome.ok r ≠ .unfinished := nofun
      exact ⟨_, settles_iterate_moved hrun hmoved hr hrest⟩
    | stop ha =>
      obtain ⟨f, hrun⟩ := ih.failure hr (by omega) hx hc ha
      refine ⟨⟨[], c, some f⟩, Settles.of_succ ?_⟩
      obtain ⟨n, hrun⟩ := hrun
      refine ⟨n, fun l hl => ?_⟩
      exact Parser.iterate_succ_failure l (hrun (l + 1) (by omega))

/-- The rules for one match or more are as many as those for any number of them. -/
theorem Peg.Derives.star_of_plus {rules : String → Option Peg} {t : Text} {i : Nat}
    (h : Derives rules t (.plus x) i m o) : ∃ o', Derives rules t (.star x) i m o' := by
  cases h with
  | seq ha hs => exact ⟨_, .more ha hs⟩
  | seqFail ha => exact ⟨_, .stop ha⟩

/-! ## Choice -/

theorem responds_attempts_success {v : Value} {d : Cursor} (gs : List Grammar)
    (hg : g.ComesTo rules c (.ok (v, d))) :
    Responds fun n => Parser.attempts ((g :: gs).map (meaning rules n).parser) c := by
  refine .congr hg (fun n hn => ?_) (responds_const (.inl ⟨.matched v d, rfl⟩))
  rw [List.map_cons, Parser.attempts_cons_ok hn]

theorem responds_attempts_failure {f : Failure} (hg : g.ComesTo rules c (.error (.failure f)))
    (hgs : Responds fun n => Parser.attempts (gs.map (meaning rules n).parser) c) :
    Responds fun n => Parser.attempts ((g :: gs).map (meaning rules n).parser) c := by
  refine .congr hg (fun n hn => Parser.attempts_cons_failure hn) (hgs.bind fun a => ?_)
  cases a <;> exact .inl ⟨_, rfl⟩

theorem responds_attempts (hr : rules.IsPeg) (ih : AnswersBelow rules m) (hc : c.Strict) :
    ∀ {gs : List Grammar} {x : Peg} {k : Nat}, k ≤ m → Grammar.pegFirst gs = some x →
      Derives rules.peg c.source x c.position k o →
      Responds fun n => Parser.attempts (gs.map (meaning rules n).parser) c
  | [], _, _, _, _, _ => responds_const (.inl ⟨.missed [], rfl⟩)
  | g :: gs, _, k, hk, he, hd => by
    obtain ⟨x, y, hx, hy, rfl⟩ := Grammar.pegFirst_cons he
    cases hd with
    | first ha =>
      obtain ⟨v, d, hrun, -, -⟩ := ih.success hr (by omega) hx hc ha
      exact responds_attempts_success gs hrun
    | second ha hb =>
      obtain ⟨f, hrun⟩ := ih.failure hr (by omega) hx hc ha
      exact responds_attempts_failure hrun (responds_attempts hr ih hc (by omega) hy hb)

theorem responds_choice {message : Option String} (hr : rules.IsPeg) (ih : AnswersBelow rules m)
    (hc : c.Strict) (he : (Grammar.choice gs message).peg = some x)
    (hd : Derives rules.peg c.source x c.position m o) :
    Responds fun n => Parser.choice (gs.map (meaning rules n).parser) message c := by
  have hans : Responds fun n => Parser.attempts (gs.map (meaning rules n).parser) c := by
    -- no candidate, a lone one, or entries enough for a failure of its own
    rcases Grammar.peg_choice he with ⟨rfl, -⟩ | ⟨g, x, rfl, rfl, hx, rfl⟩ | ⟨-, hx⟩
    · exact responds_const (.inl ⟨.missed [], rfl⟩)
    · cases hd with
      | first ha =>
        obtain ⟨v, d, hrun, -, -⟩ := ih.success hr (by omega) hx hc ha
        exact responds_attempts_success [] hrun
      | second ha hb =>
        obtain ⟨f, hrun⟩ := ih.failure hr (by omega) hx hc ha
        exact responds_attempts_failure hrun (responds_const (.inl ⟨.missed [], rfl⟩))
    · exact responds_attempts hr ih hc (Nat.le_refl m) hx hd
  refine hans.bind fun a => ?_
  cases a with
  | matched v d => exact .inl ⟨_, rfl⟩
  | missed fs =>
    simp only
    split
    · exact .inr ⟨_, rfl⟩
    · exact .inl ⟨_, rfl⟩

theorem responds_alt (hr : rules.IsPeg) (ih : AnswersBelow rules m) (hc : c.Strict)
    (hx : Grammar.pegFirst gs = some x) (hd : Derives rules.peg c.source x c.position m o)
    (message : Option String) :
    Responds fun n => Parser.alt (gs.map (meaning rules n).parser) message c := by
  refine (responds_attempts hr ih hc (Nat.le_refl m) hx hd).bind fun a => ?_
  cases a with
  | matched v d => exact .inl ⟨_, rfl⟩
  | missed fs =>
    simp only
    split
    · exact .inr ⟨_, rfl⟩
    · cases fs <;> exact .inr ⟨_, rfl⟩

end

/-! ## Meanings -/

section

variable {rules : Rules}

theorem responds_nonEmpty (keep : Char → Bool) (c : Cursor) :
    Responds fun n => Parser.refuseEmpty Value.isEmptyText
      ((meaning rules n).parser (.takeWhile keep)) c := by
  obtain ⟨x, hx⟩ : ∃ r, (meaning rules 1).parser (.takeWhile keep) c = .ok r := ⟨_, rfl⟩
  have hans : Responds fun n => (meaning rules n).parser (.takeWhile keep) c :=
    ⟨_, Grammar.comesTo_of_run hx nofun, .inl ⟨x, rfl⟩⟩
  refine hans.bind fun r => ?_
  simp only
  split
  · exact .inr ⟨_, rfl⟩
  · exact .inl ⟨_, rfl⟩

/-- A grammar answers if all shorter derivations do. That a mapping does nothing to the text makes
its derivation no shorter, so this is by recursion on the grammar. -/
theorem responds_of_answersBelow (hr : rules.IsPeg) {m : Nat} (ih : AnswersBelow rules m) :
    ∀ (g : Grammar) {e : Peg} {c : Cursor} {o : Option Nat}, g.peg = some e → c.Strict →
      Derives rules.peg c.source e c.position m o →
      Responds fun n => g.layer rules n (meaning rules n) c
  | .literal s, _, c, _, _, _, _ => (responds_const (answers_literal s c)).map Value.text
  | .takeWhile keep, _, c, _, _, _, _ => responds_const (.inl ⟨_, rfl⟩)
  | .nonEmpty (.takeWhile keep), _, c, _, _, _, _ => responds_nonEmpty keep c
  | .char keep expected, _, c, _, _, _, _ =>
    (responds_const (answers_char keep expected c)).map fun ch => Value.text [ch]
  | .endOfInput, _, c, _, _, _, _ =>
    (responds_const (answers_endOfInput c)).map fun _ => Value.unit
  | .succeed s, _, c, _, _, _, _ => responds_const (.inl ⟨_, rfl⟩)
  | .fail expected, _, c, _, _, _, _ => responds_const (.inr ⟨_, rfl⟩)
  | .and a b, _, c, _, he, hc, hd => by
    obtain ⟨x, y, hx, hy, rfl⟩ := Grammar.peg_and he
    exact (responds_and hr ih hc hx hy hd).map _
  | .map g f, _, c, _, he, hc, hd => by
    obtain ⟨x, hx, ha⟩ := responds_of_answersBelow hr ih g he hc hd
    exact Responds.map ⟨x, Grammar.comesTo_of_layer hx, ha⟩ f.apply
  | .many g, _, c, _, he, hc, hd => by
    obtain ⟨x, hx, rfl⟩ := Grammar.peg_many he
    obtain ⟨r, hrun⟩ := settles_iterate hr ih hx m (Nat.le_refl m) hc hd
    have hans : Responds fun n => Parser.iterate n ((meaning rules n).parser g) c :=
      ⟨_, hrun, .inl ⟨r, rfl⟩⟩
    exact Responds.map (hans.bind fun r => .inl ⟨(r.values, r.cursor), rfl⟩) _
  | .many1 g, _, c, _, he, hc, hd => by
    obtain ⟨x, hx, rfl⟩ := Grammar.peg_many1 he
    -- the loop is that of any number of matches, and only its end differs
    obtain ⟨o', hstar⟩ := hd.star_of_plus
    obtain ⟨r, hrun⟩ := settles_iterate hr ih hx m (Nat.le_refl m) hc hstar
    have hans : Responds fun n => Parser.iterate n ((meaning rules n).parser g) c :=
      ⟨_, hrun, .inl ⟨r, rfl⟩⟩
    refine Responds.map (p := fun n => Parser.many1 n ((meaning rules n).parser g)) ?_ _
    refine hans.bind fun r => ?_
    split
    · exact .inr ⟨_, rfl⟩
    · exact .inl ⟨_, rfl⟩
  | .choice gs message, _, c, _, he, hc, hd => (responds_choice hr ih hc he hd).map _
  | .alt gs message, _, c, _, he, hc, hd => responds_alt hr ih hc he hd message
  | .ref name, _, c, _, he, hc, hd => by
    cases he
    cases hd with
    | ref hn hd =>
      obtain ⟨g, hg, hx⟩ := Rules.exists_peg hn
      simp only [Grammar.layer, Rules.parser, hg]
      -- the rule that follows the name is derived in one rule fewer
      exact ih _ (by omega) g _ c _ hx hc hd

theorem answersBelow (hr : rules.IsPeg) : ∀ m, AnswersBelow rules m
  | 0 => fun _ hk => absurd hk (Nat.not_lt_zero _)
  | m + 1 => fun k hk g e c o he hc hd => by
    have ih : AnswersBelow rules k := fun l hl => answersBelow hr m l (by omega)
    obtain ⟨x, hx, ha⟩ := responds_of_answersBelow hr ih g he hc hd
    exact ⟨x, Grammar.comesTo_of_layer hx, ha⟩

/-- The rules of parsing expressions derive exactly what runs come to, if idle iterations are
errors. A run that ends with an error that is no failure is one of an idle iteration, and has
nothing derived of it. -/
theorem returns_iff_derives (hr : rules.IsPeg) {g : Grammar} {e : Peg} (he : g.peg = some e)
    {c : Cursor} (hc : c.IsValid) (hidle : c.config.idle = .fail) :
    (∀ j, (∃ n v d, (meaning rules n).parser g c = .ok (v, d) ∧ d.position = j) ↔
      Matches rules.peg c.source e c.position (some j)) ∧
    ((∃ n f, (meaning rules n).parser g c = .error (.failure f)) ↔
      Matches rules.peg c.source e c.position none) ∧
    ∀ n error, (meaning rules n).parser g c = .error error → error.isRecoverable = false →
      (∃ p, error = .noProgress p) ∧ ∀ o, ¬ Matches rules.peg c.source e c.position o := by
  have hstrict : c.Strict := ⟨hc, hidle⟩
  have hsound n := (meaning_obeys hr n).parser g e he c hstrict
  have hcomplete {o} (hd : Matches rules.peg c.source e c.position o) :
      ∃ x, g.ComesTo rules c x ∧ x.Shows o := by
    have ⟨m, hd'⟩ := hd
    obtain ⟨x, hx, ha⟩ := answersBelow hr (m + 1) m (Nat.lt_succ_self m) g e c o he hstrict hd'
    exact ⟨x, hx, ha.shows (Grammar.ComesTo.explains hr he hstrict hx) hd⟩
  constructor
  · intro j
    constructor
    · rintro ⟨n, v, d, hrun, rfl⟩
      have hx := hsound n
      rw [hrun] at hx
      exact hx.2
    · intro hd
      obtain ⟨x, ⟨n, hx⟩, v, d, rfl, hpos⟩ := hcomplete hd
      exact ⟨n, v, d, hx n (Nat.le_refl n), hpos⟩
  constructor
  · constructor
    · rintro ⟨n, f, hrun⟩
      have hx := hsound n
      rw [hrun] at hx
      exact hx
    · intro hd
      obtain ⟨x, ⟨n, hx⟩, f, rfl⟩ := hcomplete hd
      exact ⟨n, f, hx n (Nat.le_refl n)⟩
  · intro n error hrun hfatal
    have hx := hsound n
    rw [hrun] at hx
    constructor
    · cases error with
      | failure f => cases hfatal
      | _ => exact hx
    · intro o hd
      -- the answer that a derivation asks for would be another outcome of the same run
      obtain ⟨x, hcomes, hshows⟩ := hcomplete hd
      obtain rfl := hcomes.unique (Grammar.comesTo_of_run hrun nofun)
      cases o with
      | some j =>
        obtain ⟨v, d, h, -⟩ := hshows
        cases h
      | none =>
        obtain ⟨f, h⟩ := hshows
        cases h
        cases hfatal

end

/-- Parentheses inside each other, or nothing. -/
def nested : Grammar :=
  .optional (.and (.char (· == '(') "opening") (.and (.ref "nested") (.char (· == ')') "closing")))

/-- Nested parentheses are found to their end, and nothing is derived of any number of them, since
the last one is empty. -/
theorem returns_iff_derives_nested :
    Matches (Rules.peg fun _ => some nested) "é(())x".toList (.ref "nested") 2 (some 6) ∧
      ∀ o, ¬ Matches (Rules.peg fun _ => some nested) "é(())x".toList (.star (.ref "nested")) 2 o := by
  have hr : Rules.IsPeg fun _ => some nested := by
    intro name g h
    cases h
    rfl
  have hc : Cursor.IsValid ⟨"é(())x".toList, 2, .default⟩ := by decide
  have hone := returns_iff_derives hr (g := .ref "nested") rfl hc rfl
  have hmany := returns_iff_derives hr (g := .many (.ref "nested")) rfl hc rfl
  refine ⟨(hone.1 6).1 ⟨16, _, _, rfl, rfl⟩, ?_⟩
  exact (hmany.2.2 20 (.noProgress 6) rfl rfl).2

end Backtrack
