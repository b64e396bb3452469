/-
What a run comes to is what the rules of parsing expressions derive. Main statement: a success of
a grammar is a success of its expression at the same position, a failure is a failure, and the
only other error there is comes from a repetition that stands still (`meaning_obeys`). The
rules derive what a repetition does from its end to its beginning, so the loop is read backwards.
-/
import Backtrack.Grammar.Budget
import Backtrack.Proofs.Peg.Expression

namespace Backtrack

open Peg (Matches)

/-! ## Cursors of a run -/

/-- The cursor stands at a boundary, and an iteration that stands still there is an error. -/
structure Cursor.Strict (c : Cursor) : Prop where
  isValid : c.IsValid
  idle : c.config.idle = .fail

/-- The cursor is one that a run from another cursor comes to: it differs in its position only. -/
structure Cursor.Follows (d c : Cursor) : Prop where
  source : d.source = c.source
  config : d.config = c.config
  isValid : d.IsValid

namespace Cursor

variable {b c d : Cursor}

theorem Strict.follows (hc : c.Strict) : c.Follows c := ⟨rfl, rfl, hc.isValid⟩

theorem Strict.of_follows (hc : c.Strict) (hd : d.Follows c) : d.Strict :=
  ⟨hd.isValid, by rw [hd.config]; exact hc.idle⟩

theorem Follows.trans (hb : b.Follows d) (hd : d.Follows c) : b.Follows c :=
  ⟨hb.source.trans hd.source, hb.config.trans hd.config, hb.isValid⟩

/-- What a strict cursor sees of its text. -/
theorem Strict.after? (hc : c.Strict) : c.source.after? c.position = some c.remaining := by
  obtain ⟨s, hs, hp⟩ := hc.isValid.exists_split
  exact Text.after?_eq_some_iff.2 ⟨s, hs, hp⟩

/-- A strict cursor that passes the front of what remains. -/
theorem Strict.advance_follows (hc : c.Strict) {s r : Text} (h : c.remaining = s ++ r) :
    (c.advance s.size).Follows c :=
  ⟨rfl, rfl, (hc.isValid.advance h).1⟩

end Cursor

/-! ## Outcomes that the rules explain -/

/-- If a computation returns, its value or its error is one of which something is known. -/
def Outcome.Meets {α : Type} (good : α → Prop) (bad : ParseError → Prop) : Outcome α → Prop
  | .ok a => good a
  | .error e => bad e
  | .unfinished => True

theorem Outcome.Meets.bind {α β : Type} {good : α → Prop} {good' : β → Prop}
    {bad bad' : ParseError → Prop} {x : Outcome α} {k : α → Outcome β} (h : x.Meets good bad)
    (hk : ∀ a, good a → (k a).Meets good' bad') (hb : ∀ e, bad e → bad' e) :
    (x >>= k).Meets good' bad' := by
  cases x with
  | ok a => exact hk a h
  | error e => exact hb e h
  | unfinished => trivial

/-- A failure is derived, and every other error is that of an idle iteration. -/
def Peg.ExplainsError (rules : Rules) (e : Peg) (c : Cursor) : ParseError → Prop
  | .failure _ => Matches rules.peg c.source e c.position none
  | error => error.IsIdle

/-- A success is derived with the position where it ends, and so are failures. -/
def Peg.Explains {α : Type} (rules : Rules) (e : Peg) (c : Cursor) :
    Outcome (α × Cursor) → Prop :=
  Outcome.Meets (fun r => r.2.Follows c ∧
    Matches rules.peg c.source e c.position (some r.2.position)) (e.ExplainsError rules c)

/-- The same of the candidates of an ordered choice, each of which has a failure if all miss. -/
def Peg.ExplainsAttempts {α : Type} (rules : Rules) (e : Peg) (c : Cursor) (candidates : Nat) :
    Attempts α → Prop
  | .matched _ d => d.Follows c ∧ Matches rules.peg c.source e c.position (some d.position)
  | .missed fs => fs.length = candidates ∧ Matches rules.peg c.source e c.position none

/-- A parser does what an expression does. -/
def Parser.Obeys {α : Type} (rules : Rules) (p : Parser α) (e : Peg) : Prop :=
  ∀ c : Cursor, c.Strict → e.Explains rules c (p c)

section

variable {α β : Type} {rules : Rules} {e x : Peg} {c : Cursor}

theorem ParseError.IsIdle.explains {error : ParseError} (h : error.IsIdle) :
    e.ExplainsError rules c error := by
  obtain ⟨p, rfl⟩ := h
  exact ⟨p, rfl⟩

theorem Peg.ExplainsError.imp {d : Cursor} {error : ParseError} (h : e.ExplainsError rules c error)
    (hn : Matches rules.peg c.source e c.position none →
      Matches rules.peg d.source x d.position none) : x.ExplainsError rules d error := by
  cases error with
  | failure f => exact hn h
  | _ => exact h

/-- A computation that is explained at one cursor, and another one that goes on from there. -/
theorem Peg.Explains.bind {d : Cursor} {y : Outcome (α × Cursor)}
    {k : α × Cursor → Outcome (β × Cursor)} (hy : e.Explains rules d y)
    (hk : ∀ a d', d'.Follows d → Matches rules.peg d.source e d.position (some d'.position) →
      x.Explains rules c (k (a, d')))
    (hn : Matches rules.peg d.source e d.position none →
      Matches rules.peg c.source x c.position none) : x.Explains rules c (y >>= k) :=
  Outcome.Meets.bind hy (fun r hr => hk r.1 r.2 hr.1 hr.2) fun _ he => he.imp hn

end

namespace Parser.Obeys

variable {α β : Type} {rules : Rules} {p : Parser α} {q : Parser β} {e x : Peg}

theorem map (h : Obeys rules p e) (f : α → β) : Obeys rules (p.map f) e := by
  intro c hc
  exact (h c hc).bind (fun _ d hd hm => ⟨hd, hm⟩) id

/-! ## Reading -/

theorem literal (s : String) : Obeys rules (Parser.literal s) (.text s.toList) := by
  intro c hc
  have hm : Matches rules.peg c.source (.text s.toList) c.position _ := .text hc.after?
  unfold Parser.literal
  by_cases hp : s.toList.isPrefixOf c.remaining
  · rw [if_pos hp] at hm ⊢
    obtain ⟨r, hr⟩ := List.isPrefixOf_iff_prefix.1 hp
    exact ⟨hc.advance_follows hr.symm, hm⟩
  · rw [if_neg hp] at hm ⊢
    exact hm

theorem takeWhile (keep : Char → Bool) : Obeys rules (Parser.takeWhile keep) (.span keep) := by
  intro c hc
  have hr : c.remaining = c.remaining.takeWhile keep ++ c.remaining.dropWhile keep :=
    List.takeWhile_append_dropWhile.symm
  rw [Parser.takeWhile_eq]
  exact ⟨hc.advance_follows hr, .span hc.after?⟩

theorem takeWhile1 (keep : Char → Bool) :
    Obeys rules (refuseEmpty Value.isEmptyText ((Parser.takeWhile keep).map Value.text))
      (.plus (.char keep)) := by
  intro c hc
  have hr : c.remaining = c.remaining.takeWhile keep ++ c.remaining.dropWhile keep :=
    List.takeWhile_append_dropWhile.symm
  have hm : Matches rules.peg c.source (.plus (.char keep)) c.position _ := .plusSpan hc.after?
  simp only [refuseEmpty, Parser.map, Parser.takeWhile_eq, Outcome.ok_bind, Outcome.pure_eq,
    Value.isEmptyText, List.isEmpty_iff]
  by_cases hs : c.remaining.takeWhile keep = []
  · rw [if_pos hs] at hm ⊢
    exact hm
  · rw [if_neg hs] at hm ⊢
    exact ⟨hc.advance_follows hr, hm⟩

theorem char (keep : Char → Bool) (expected : String) :
    Obeys rules (Parser.char keep expected) (.char keep) := by
  intro c hc
  have ht := hc.after?
  unfold Parser.char Cursor.next Cursor.current
  cases hr : c.remaining with
  | nil =>
    rw [hr] at ht
    exact Matches.charEnd keep ht
  | cons ch r =>
    rw [hr] at ht
    have hm : Matches rules.peg c.source (.char keep) c.position _ := .char ht
    simp only [List.head?_cons]
    by_cases hk : keep ch = true
    · rw [if_pos hk] at hm ⊢
      exact ⟨hc.advance_follows (s := [ch]) hr, hm⟩
    · rw [if_neg hk] at hm ⊢
      exact hm

theorem endOfInput : Obeys rules Parser.endOfInput .endOfText := by
  intro c hc
  have hm : Matches rules.peg c.source .endOfText c.position _ := .endOfText hc.after?
  unfold Parser.endOfInput
  by_cases hr : c.remaining = []
  · rw [if_pos hr] at hm
    rw [if_pos (hc.isValid.atEnd_iff.2 hr)]
    exact ⟨hc.follows, hm⟩
  · rw [if_neg hr] at hm
    rw [if_neg (mt hc.isValid.atEnd_iff.1 hr)]
    exact hm

theorem succeed (a : α) : Obeys rules (Parser.succeed a) .empty := by
  intro c hc
  exact ⟨hc.follows, .empty _⟩

theorem fail (expected : String) : Obeys rules (Parser.fail expected : Parser α) .fail := by
  intro c _
  exact Matches.fail _

/-! ## Sequence and repetition -/

theorem and (hp : Obeys rules p e) (hq : Obeys rules q x) : Obeys rules (p.and q) (.seq e x) := by
  intro c hc
  refine (hp c hc).bind (fun a d hd hm => ?_) (.seqFail x)
  refine (hq d (hc.of_follows hd)).bind (fun b d' hd' hm' => ?_) fun hm' => ?_
  · rw [hd.source] at hm'
    exact ⟨hd'.trans hd, hm.seq hm'⟩
  · rw [hd.source] at hm'
    exact hm.seq hm'

end Parser.Obeys

/-! ## Repetition -/

/-- What a repetition collected is explained: nothing, because the expression fails, or one match
and more. -/
structure Repetition.Explained {α : Type} (rules : Rules) (e : Peg) (c : Cursor)
    (r : Repetition α) : Prop where
  follows : r.cursor.Follows c
  star : Matches rules.peg c.source (.star e) c.position (some r.cursor.position)
  none : r.values = [] → Matches rules.peg c.source e c.position none
  plus : r.values ≠ [] → Matches rules.peg c.source (.plus e) c.position (some r.cursor.position)

namespace Parser.Obeys

variable {α : Type} {rules : Rules} {p : Parser α} {e : Peg}

theorem iterate (h : Obeys rules p e) : ∀ (n : Nat) {c : Cursor}, c.Strict →
    (Parser.iterate n p c).Meets (Repetition.Explained rules e c) ParseError.IsIdle
  | 0, _, _ => trivial
  | n + 1, c, hc => by
    have hp := h c hc
    cases hx : p c with
    | ok y =>
      obtain ⟨a, d⟩ := y
      rw [hx] at hp
      obtain ⟨hd, hm⟩ := hp
      by_cases hpos : d.position = c.position
      · rw [iterate_succ_idle_fail n hx hpos hc.idle]
        exact ⟨c.position, rfl⟩
      · rw [iterate_succ_moved n hx hpos]
        refine (h.iterate n (hc.of_follows hd)).bind (fun r hr => ?_) fun _ he => he
        -- the rest is explained where the first iteration ended
        have hstar := hr.star
        rw [hd.source] at hstar
        exact ⟨hr.follows.trans hd, hm.more hstar, nofun, fun _ => hm.seq hstar⟩
    | error error =>
      rw [hx] at hp
      cases error with
      | failure f =>
        rw [iterate_succ_failure n hx]
        exact ⟨hc.follows, Matches.stop hp, fun _ => hp, fun hne => absurd rfl hne⟩
      | _ =>
        rw [iterate_succ_fatal n hx rfl]
        exact hp
    | unfinished =>
      rw [iterate_succ_unfinished n hx]
      trivial

theorem many (h : Obeys rules p e) (n : Nat) : Obeys rules (Parser.many n p) (.star e) := by
  intro c hc
  exact (h.iterate n hc).bind (fun r hr => ⟨hr.follows, hr.star⟩) fun _ he => he.explains

theorem many1 (h : Obeys rules p e) (n : Nat) : Obeys rules (Parser.many1 n p) (.plus e) := by
  intro c hc
  refine (h.iterate n hc).bind (fun r hr => ?_) fun _ he => he.explains
  by_cases hv : r.values = []
  · rw [if_pos (by rw [hv]; rfl)]
    exact (hr.none hv).seqFail _
  · rw [if_neg (by simpa using hv)]
    exact ⟨hr.follows, hr.plus hv⟩

end Parser.Obeys

/-- A meaning on which grammars do what their expressions do. That a span may be asked not to be
empty is an account of its value, so spans are known for what they are. -/
structure Meaning.Obeys (rules : Rules) (m : Meaning) : Prop where
  parser : ∀ g e, Grammar.peg g = some e → Parser.Obeys rules (m.parser g) e
  span : ∀ keep, (m.parser (.takeWhile keep)).Le ((Parser.takeWhile keep).map .text)

/-! ## Choice -/

namespace Parser

variable {rules : Rules} {m : Meaning} {gs : List Grammar} {e : Peg}

theorem attempts_explained (hm : m.Obeys rules) {c : Cursor} (hc : c.Strict) :
    ∀ {gs : List Grammar} {e : Peg}, Grammar.pegFirst gs = some e →
      (attempts (gs.map m.parser) c).Meets (e.ExplainsAttempts rules c gs.length)
        ParseError.IsIdle
  | [], e, he => by
    cases he
    exact ⟨rfl, .fail c.position⟩
  | g :: gs, e, he => by
    obtain ⟨x, y, hx, hy, rfl⟩ := Grammar.pegFirst_cons he
    have hg := hm.parser g x hx c hc
    rw [List.map_cons]
    cases hp : m.parser g c with
    | ok r =>
      rw [hp] at hg
      rw [attempts_cons_ok hp]
      exact ⟨hg.1, hg.2.first y⟩
    | error error =>
      rw [hp] at hg
      cases error with
      | failure f =>
        rw [attempts_cons_failure hp]
        -- a later candidate counts only because this one fails
        have hfail : Matches rules.peg c.source x c.position none := hg
        refine (attempts_explained hm hc hy).bind (fun a ha => ?_) fun _ he => he
        cases a with
        | matched a d => exact ⟨ha.1, hfail.second ha.2⟩
        | missed fs => exact ⟨congrArg Nat.succ ha.1, hfail.second ha.2⟩
      | _ =>
        rw [attempts_cons_fatal hp rfl]
        exact hg
    | unfinished =>
      rw [attempts_cons_unfinished hp]
      trivial

theorem alt_explained (hm : m.Obeys rules) (he : Grammar.pegFirst gs = some e)
    (message : Option String) : Obeys rules (alt (gs.map m.parser) message) e := by
  intro c hc
  refine (attempts_explained hm hc he).bind (fun a ha => ?_) fun _ he => he.explains
  cases a with
  | matched a d => exact ha
  | missed fs =>
    simp only
    -- whatever the failure says, it is one
    split
    · exact ha.2
    · cases fs with
      | nil => exact ha.2
      | cons f fs => exact ha.2

theorem choice_explained {message : Option String} (hm : m.Obeys rules)
    (he : (Grammar.choice gs message).peg = some e) :
    Obeys rules (choice (gs.map m.parser) message) e := by
  intro c hc
  rcases Grammar.peg_choice he with ⟨rfl, rfl⟩ | ⟨g, x, rfl, rfl, hx, rfl⟩ | ⟨hlen, he⟩
  · -- without candidates there are too few entries for a failure
    have hle : ¬ 1 < entries message 0 := by
      cases message <;> simp [entries]
    simp only [choice, List.map_nil, attempts, Outcome.ok_bind, List.length_nil, if_neg hle]
    exact ⟨hc.follows, .empty c.position⟩
  · -- the failure of a lone candidate is taken as finding nothing
    have hg := hm.parser g x hx c hc
    unfold choice
    rw [List.map_cons, List.map_nil]
    cases hp : m.parser g c with
    | ok r =>
      rw [hp] at hg
      rw [attempts_cons_ok hp]
      exact ⟨hg.1, hg.2.first .empty⟩
    | error error =>
      rw [hp] at hg
      cases error with
      | failure f =>
        rw [attempts_cons_failure hp]
        exact ⟨hc.follows, Matches.second hg (.empty c.position)⟩
      | _ =>
        rw [attempts_cons_fatal hp rfl]
        exact hg
    | unfinished =>
      rw [attempts_cons_unfinished hp]
      trivial
  · refine (attempts_explained hm hc he).bind (fun a ha => ?_) fun _ he => he.explains
    cases a with
    | matched a d => exact ha
    | missed fs =>
      -- there are as many failures as candidates, so the choice fails
      simp only [ha.1, if_pos hlen]
      exact ha.2

end Parser

/-! ## Meanings -/

/-- Every rule stands for an expression. -/
def Rules.IsPeg (rules : Rules) : Prop := ∀ name g, rules name = some g → g.peg.isSome

theorem Grammar.layer_obeys {rules : Rules} {m : Meaning} (hr : rules.IsPeg) (hm : m.Obeys rules)
    (n : Nat) {g : Grammar} {e : Peg} (he : g.peg = some e) :
    Parser.Obeys rules (g.layer rules n m) e := by
  cases g with
  | literal s =>
    cases he
    exact (Parser.Obeys.literal s).map _
  | takeWhile keep =>
    cases he
    exact (Parser.Obeys.takeWhile keep).map _
  | nonEmpty g =>
    cases g with
    | takeWhile keep =>
      cases he
      intro c hc
      show Peg.Explains _ _ _ (Parser.refuseEmpty Value.isEmptyText (m.parser (.takeWhile keep)) c)
      -- the meaning has not returned yet, or what it gives is a span
      rcases (hm.span keep).refuseEmpty Value.isEmptyText c with h | h
      · rw [h]
        trivial
      · rw [h]
        exact Parser.Obeys.takeWhile1 keep c hc
    | _ => cases he
  | char keep expected =>
    cases he
    exact (Parser.Obeys.char keep expected).map fun ch => Value.text [ch]
  | endOfInput =>
    cases he
    exact Parser.Obeys.endOfInput.map fun _ => Value.unit
  | succeed s =>
    cases he
    exact Parser.Obeys.succeed _
  | fail expected =>
    cases he
    exact Parser.Obeys.fail expected
  | and a b =>
    obtain ⟨x, y, hx, hy, rfl⟩ := Grammar.peg_and he
    exact ((hm.parser a x hx).and (hm.parser b y hy)).map _
  | map g f => exact (hm.parser g e he).map _
  | many g =>
    obtain ⟨x, hx, rfl⟩ := Grammar.peg_many he
    exact ((hm.parser g x hx).many n).map _
  | many1 g =>
    obtain ⟨x, hx, rfl⟩ := Grammar.peg_many1 he
    exact ((hm.parser g x hx).many1 n).map _
  | choice gs message => exact (Parser.choice_explained hm he).map _
  | alt gs message => exact Parser.alt_explained hm he message
  | ref name =>
    cases he
    intro c hc
    show Peg.Explains _ _ _ (rules.parser m name c)
    unfold Rules.parser
    cases hn : rules name with
    | some g =>
      obtain ⟨x, hx⟩ := Option.isSome_iff_exists.1 (hr name g hn)
      have hpeg : rules.peg name = some x := by
        rw [Rules.peg, hn]
        exact hx
      have hg := (hm.parser g x hx c hc).bind (k := pure) (fun _ _ hd h => ⟨hd, h.ref hpeg⟩)
        (.ref hpeg)
      rwa [bind_pure] at hg
    | none => trivial
  | _ => cases he

theorem meaning_obeys {rules : Rules} (hr : rules.IsPeg) : ∀ n, (meaning rules n).Obeys rules
  | 0 => ⟨fun _ _ _ _ _ => trivial, fun _ _ => .inl rfl⟩
  | n + 1 => ⟨fun _ _ he => Grammar.layer_obeys hr (meaning_obeys hr n) n he, fun _ _ => .inr rfl⟩

end Backtrack
