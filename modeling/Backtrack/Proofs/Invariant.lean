/-
Invariants of cursors. A simulation that relates a run to itself says that some property of
cursors is kept by whatever moves a cursor. Main statement: if the property holds where a run
starts, it holds of every cursor on its record, of those handed to a parser as well as of those
that come back from one (`Simulation.tracks_record`). An `Invariant` has a property of errors beside
that of cursors, which holds of the error that a run ends with.
-/
import Backtrack.Proofs.Record
import Backtrack.Proofs.Simulation.Run

namespace Backtrack.Simulation

/-- A run beside itself, with a property of cursors that is kept by what moves them. Of an error
only what it expected matters. -/
def diagonal (P : Cursor → Prop) (node : Grammar → Bool) (step : Step → Bool)
    (advance : ∀ {c s r}, P c → c.remaining = s ++ r → P (c.advance (Text.size s)))
    (configure : ∀ {c config}, node (.configure config) = true → P c → P (c.withConfig config))
    (jump : ∀ {c d p}, node (.jump p) = true → P c → Cursor.startAt c.source p = .ok d → P d) :
    Simulation where
  cursor c d := c = d ∧ P c
  position p q := p = q
  error e f := e.expected? = f.expected?
  excused _ := False
  node := node
  step := step
  remaining_eq := by rintro c _ ⟨rfl, -⟩; rfl
  atEnd_eq := by rintro c _ ⟨rfl, -⟩; rfl
  position_at := by rintro c _ ⟨rfl, -⟩; rfl
  moved_iff := by rintro c _ d _ ⟨rfl, -⟩ ⟨rfl, -⟩; rfl
  advance := by rintro c _ s r ⟨rfl, hc⟩ hr; exact ⟨rfl, advance hc hr⟩
  idle := by rintro c _ ⟨rfl, -⟩; exact .inl rfl
  expected_eq h := h
  excused_fatal := @ParseError.isRecoverable_of_false
  failure := by rintro c _ ⟨rfl, -⟩ expected kind; rfl
  noProgress := by rintro c _ ⟨rfl, -⟩; rfl
  aborted _ _ := rfl
  configure := by rintro c _ config hn ⟨rfl, hc⟩; exact ⟨rfl, configure hn hc⟩
  jump := by
    rintro c _ p hn ⟨rfl, hc⟩
    cases h : Cursor.startAt c.source p with
    | ok d => exact .ok ⟨rfl, jump hn hc h⟩
    | error e => exact .error rfl
    | unfinished => exact .unfinished
  failAt := by rintro c _ p expected kind limit - ⟨rfl, -⟩; rfl
  catching _ _ := False.elim

variable (S : Simulation) {m : Meaning} {log : Recording}

/-- Every cursor of the events is alike to itself. -/
def Tracks (events : List Event) : Prop := ∀ e ∈ events, ∀ d ∈ e.cursors, S.cursor d d

/-- A recording on which the cursors of the grammars and bodies that the simulation admits are
alike to themselves. -/
structure Records (log : Recording) : Prop where
  parser : ∀ g : Grammar, g.all S.node S.step = true → ∀ c, S.cursor c c → S.Tracks (log.parser g c)
  body : ∀ xs, Step.allIn S.node S.step xs = true → ∀ s, S.Scopes s s → S.Tracks (log.body xs s)

variable {S}

theorem tracks_nil : S.Tracks [] := fun _ h => nomatch h

theorem Tracks.append {l k : List Event} (hl : S.Tracks l) (hk : S.Tracks k) : S.Tracks (l ++ k) :=
  fun e he => (List.mem_append.1 he).elim (hl e) (hk e)

theorem Tracks.cons {e : Event} {l : List Event} (he : ∀ d ∈ e.cursors, S.cursor d d)
    (hl : S.Tracks l) : S.Tracks (e :: l) := by
  intro f hf
  rcases List.mem_cons.1 hf with rfl | hf
  · exact he
  · exact hl f hf

/-- A parser that is alike to itself gives back a cursor that is. -/
theorem Parsers.next {α : Type} {R : α → α → Prop} {p : Parser α} (hp : S.Parsers R p p)
    {c : Cursor} (hc : S.cursor c c) {r : α × Cursor} (h : p c = .ok r) : S.cursor r.2 r.2 := by
  have hr := hp c c hc
  rw [h] at hr
  cases hr with
  | ok hr => exact hr.2

/-- The error of a parser that is alike to itself is alike to itself, or excused. -/
theorem Parsers.error {α : Type} {R : α → α → Prop} {p : Parser α} (hp : S.Parsers R p p)
    {c : Cursor} (hc : S.cursor c c) {e : ParseError} (h : p c = .error e) :
    S.error e e ∨ S.excused e := by
  have hr := hp c c hc
  rw [h] at hr
  cases hr with
  | error he => exact .inl he
  | excused he => exact .inr he

theorem tracks_ended {R : Value → Value → Prop} (g : Grammar) {p : Parser Value}
    (hp : S.Parsers R p p) {c : Cursor} (hc : S.cursor c c) : S.Tracks (Event.ended g c (p c)) := by
  cases h : p c with
  | ok r =>
    refine .cons (fun d hd => ?_) tracks_nil
    rcases List.mem_cons.1 hd with rfl | hd
    · exact hc
    · rw [List.mem_singleton.1 hd]
      exact hp.next hc h
  | error e => exact .cons (fun d hd => List.mem_singleton.1 hd ▸ hc) tracks_nil
  | unfinished => exact tracks_nil

theorem tracks_around {R : Value → Value → Prop} (g : Grammar) {p : Parser Value}
    (hp : S.Parsers R p p) {inside : Cursor → List Event}
    (hin : ∀ c, S.cursor c c → S.Tracks (inside c)) (c : Cursor) (hc : S.cursor c c) :
    S.Tracks (Event.around g p inside c) :=
  .cons (fun _ hd => List.mem_singleton.1 hd ▸ hc) ((hin c hc).append (tracks_ended g hp hc))

theorem tracks_thenRecord {α : Type} {R : α → α → Prop} {p : Parser α} (hp : S.Parsers R p p)
    {k : α × Cursor → List Event} {c : Cursor} (hc : S.cursor c c)
    (hk : ∀ r, S.cursor r.2 r.2 → S.Tracks (k r)) : S.Tracks ((p c).thenRecord k) := by
  cases h : p c with
  | ok r => exact hk r (hp.next hc h)
  | error e => exact tracks_nil
  | unfinished => exact tracks_nil

/-- A body that is alike to itself leaves a scope that is, and gives a value that is. -/
theorem Bodies.next {α : Type} {R : α → α → Prop} {b : Body α} (hb : S.Bodies R b b) {s t : Scope}
    (hs : S.Scopes s s) {a : α} (h : b s = (.ok a, t)) : R a a ∧ S.Scopes t t := by
  have hr := hb s s hs
  rw [h] at hr
  cases hr with
  | both ho ht =>
    cases ho with
    | ok ha => exact ⟨ha, ht⟩

theorem tracks_body {α : Type} {R : α → α → Prop} {b : Body α} (hb : S.Bodies R b b) {s : Scope}
    (hs : S.Scopes s s) {k : α → Scope → List Event}
    (hk : ∀ a t, R a a → S.Scopes t t → S.Tracks (k a t)) : S.Tracks (b.thenRecord s k) := by
  unfold Body.thenRecord
  split
  · next a t h =>
    obtain ⟨ha, ht⟩ := hb.next hs h
    exact hk a t ha ht
  · exact tracks_nil

/-! ## The layers of a recording -/

theorem tracks_attempts (hm : S.Meanings m) (hl : S.Records log) {c : Cursor} (hc : S.cursor c c) :
    ∀ {gs : List Grammar}, Grammar.allIn S.node S.step gs = true →
      S.Tracks (Recording.attempts m log gs c)
  | [], _ => tracks_nil
  | g :: gs, h => by
    simp only [Grammar.allIn, Bool.and_eq_true] at h
    refine (hl.parser g h.1 c hc).append ?_
    split
    · exact tracks_attempts hm hl hc h.2
    · exact tracks_nil

theorem tracks_iterate (hm : S.Meanings m) (hl : S.Records log) {g : Grammar}
    (hg : g.all S.node S.step = true) : ∀ (n : Nat) {c : Cursor}, S.cursor c c →
      S.Tracks (Recording.iterate m log g n c)
  | 0, _, _ => tracks_nil
  | n + 1, c, hc => by
    refine (hl.parser g hg c hc).append (tracks_thenRecord (hm.parser g hg) hc fun r hr => ?_)
    split
    · exact tracks_nil
    · exact tracks_iterate hm hl hg n hr

theorem tracks_number {c : Cursor} (hc : S.cursor c c) : S.Tracks (Recording.number c) := by
  have hsign : S.Parsers S.Values ((Parser.literal "-").map .text) ((Parser.literal "-").map .text) :=
    map (literal "-") fun _ _ h => h ▸ .text _
  have hspan : S.Parsers S.Values ((Parser.takeWhile isDigit).map .text)
      ((Parser.takeWhile isDigit).map .text) := map (takeWhile isDigit) fun _ _ h => h ▸ .text _
  -- the parsers in a numeral are simulated as those of grammars of the same form
  have hdigits := refuseEmpty hspan (f := Value.isEmptyText) fun _ _ h => h.isEmptyText_eq
  refine (tracks_around _ (map (optional hsign) fun _ _ h => values_ofOption h)
    (tracks_around _ hsign fun _ _ => tracks_nil) c hc).append ?_
  refine tracks_thenRecord (optional hsign) hc fun r hr => ?_
  exact tracks_around _ (alt (.cons hdigits .nil) _)
    (tracks_around _ hdigits (tracks_around _ hspan fun _ _ => tracks_nil)) r.2 hr

theorem tracks_test (hm : S.Meanings m) (hl : S.Records log) {g : Grammar}
    (hg : g.all S.node S.step = true) {c : Cursor} (hc : S.cursor c c) :
    S.Tracks (Recording.test m log g c) :=
  tracks_around _ (map (optional (hm.parser g hg)) fun _ _ h => values_ofOption h)
    (hl.parser g hg) c hc

theorem tracks_turns (hm : S.Meanings m) (hl : S.Records log) {g : Grammar} {xs : List Step}
    (hg : g.all S.node S.step = true) (hxs : Step.allIn S.node S.step xs = true) :
    ∀ (n : Nat) {s : Scope}, S.Scopes s s → S.Tracks (Recording.turns m log g xs n s)
  | 0, _, _ => tracks_nil
  | n + 1, s, hs => by
    refine (tracks_test hm hl hg hs.cursor).append ?_
    refine tracks_body (.run (optional (hm.parser g hg))) hs fun found t _ ht => ?_
    cases found with
    | none => exact tracks_nil
    | some v =>
      -- the next turn starts from the scope that the body of this one left
      refine (hl.body xs hxs t ht).append ?_
      exact tracks_body (hm.body xs hxs) ht fun _ _ _ hu => tracks_turns hm hl hg hxs n hu

theorem tracks_step (hm : S.Meanings m) (hl : S.Records log) (n : Nat) {x : Step}
    (hx : x.all S.node S.step = true) {s : Scope} (hs : S.Scopes s s) :
    S.Tracks (Recording.step n m log x s) := by
  cases x with
  | run g | skip g | attempt g | peek g =>
    simp only [Step.all, Bool.and_eq_true] at hx
    exact hl.parser g hx.2 _ hs.cursor
  | ifMatch g yes no =>
    simp only [Step.all, Bool.and_eq_true] at hx
    refine (tracks_test hm hl hx.2.1 hs.cursor).append ?_
    refine tracks_body (.run (optional (hm.parser g hx.2.1))) hs fun found t hv ht => ?_
    cases hv with
    -- the value found by the test is pushed before the body starts
    | some hv =>
      exact hl.body yes hx.2.2.1 _ ⟨ht.cursor, List.rel_append ht.pushed (.cons hv .nil)⟩
    | none => exact hl.body no hx.2.2.2 t ht
  | whileMatch g xs =>
    simp only [Step.all, Bool.and_eq_true] at hx
    exact tracks_turns hm hl hx.2.1 hx.2.2 n hs
  | _ => exact tracks_nil

theorem tracks_steps (hm : S.Meanings m) (hl : S.Records log) (n : Nat) : ∀ {xs : List Step},
    Step.allIn S.node S.step xs = true → ∀ {s : Scope}, S.Scopes s s →
      S.Tracks (Recording.steps n m log xs s)
  | [], _, _, _ => tracks_nil
  | x :: xs, h, s, hs => by
    simp only [Step.allIn, Bool.and_eq_true] at h
    refine (Tracks.cons (fun _ hd => List.mem_singleton.1 hd ▸ hs.cursor)
      (tracks_step hm hl n h.1 hs)).append ?_
    exact tracks_body (step_layer hm n h.1) hs fun _ _ _ ht => tracks_steps hm hl n h.2 ht

theorem tracks_grammar {rules : Rules} (hr : rules.All S.node S.step) (hm : S.Meanings m)
    (hl : S.Records log) (n : Nat) {g : Grammar} (hg : g.all S.node S.step = true) (c : Cursor)
    (hc : S.cursor c c) : S.Tracks (Recording.grammar rules n m log g c) := by
  cases g with
  | nonEmpty g | map g f | convert g f =>
    simp only [Grammar.all, Bool.and_eq_true] at hg
    exact hl.parser g hg.2 c hc
  | number => exact tracks_number hc
  | and a b =>
    simp only [Grammar.all, Bool.and_eq_true] at hg
    exact (hl.parser a hg.2.1 c hc).append
      (tracks_thenRecord (hm.parser a hg.2.1) hc fun r hr => hl.parser b hg.2.2 r.2 hr)
  | many g | many1 g =>
    simp only [Grammar.all, Bool.and_eq_true] at hg
    exact tracks_iterate hm hl hg.2 n hc
  | choice gs message | alt gs message =>
    simp only [Grammar.all, Bool.and_eq_true] at hg
    exact tracks_attempts hm hl hc hg.2
  | block xs result =>
    simp only [Grammar.all, Bool.and_eq_true] at hg
    exact hl.body xs hg.2 _ ⟨hc, .nil⟩
  | ref name =>
    simp only [Recording.grammar]
    cases h : rules name with
    | some g => exact hl.parser g (hr name g h) c hc
    | none => exact tracks_nil
  | _ => exact tracks_nil

theorem records_recording {rules : Rules} (hr : rules.All S.node S.step) :
    ∀ n, S.Records (recording rules n)
  | 0 => ⟨fun _ _ _ hc => .cons (fun _ hd => List.mem_singleton.1 hd ▸ hc) tracks_nil,
      fun _ _ _ _ => tracks_nil⟩
  | n + 1 =>
    have hl := records_recording hr n
    ⟨fun g hg => tracks_around g ((run hr (n + 1)).parser g hg) (tracks_grammar hr (run hr n) hl n hg),
      fun _ hxs _ hs => tracks_steps (run hr n) hl n hxs hs⟩

/-- What holds of the cursor at the start of a run holds of every cursor on its record. -/
theorem tracks_record {rules : Rules} (hr : rules.All S.node S.step) {g : Grammar}
    (hg : g.all S.node S.step = true) {c : Cursor} (hc : S.cursor c c) (n : Nat) :
    S.Tracks (g.record rules n c) :=
  (records_recording hr n).parser g hg c hc

end Backtrack.Simulation

namespace Backtrack

/-! ## Invariants of cursors and of errors -/

/-- A property of cursors that is kept by what moves them, and a property of errors that those
raised at such a cursor have. -/
structure Invariant where
  cursor : Cursor → Prop
  error : ParseError → Prop
  node : Grammar → Bool
  step : Step → Bool
  advance : ∀ {c s r}, cursor c → c.remaining = s ++ r → cursor (c.advance (Text.size s))
  configure : ∀ {c config}, node (.configure config) = true → cursor c →
    cursor (c.withConfig config)
  jump : ∀ {c d p}, node (.jump p) = true → cursor c → Cursor.startAt c.source p = .ok d → cursor d
  failure : ∀ {c}, cursor c → ∀ expected kind,
    error (.failure ⟨c.location, expected, kind, c.config.snippetLimit⟩)
  noProgress : ∀ {c}, cursor c → error (.noProgress c.position)
  aborted : ∀ reason, error (.aborted reason)
  invalidStart : ∀ {c p}, node (.jump p) = true → cursor c →
    error (.invalidStart p c.source.size)
  failAt : ∀ {c p expected kind limit}, node (.failAt p expected kind limit) = true → cursor c →
    error (.failure ⟨⟨c.source, p⟩, expected, kind, limit⟩)

namespace Invariant

variable (I : Invariant)

/-- A run beside itself, with the invariant. -/
def simulation : Simulation :=
  { Simulation.diagonal I.cursor I.node I.step I.advance I.configure I.jump with
    error := fun e f => e = f ∧ I.error e
    expected_eq := by rintro e _ ⟨rfl, -⟩; rfl
    failure := by rintro c _ ⟨rfl, hc⟩ expected kind; exact ⟨rfl, I.failure hc expected kind⟩
    noProgress := by rintro c _ ⟨rfl, hc⟩; exact ⟨rfl, I.noProgress hc⟩
    aborted := fun _ reason => ⟨rfl, I.aborted reason⟩
    jump := by
      rintro c _ p hn ⟨rfl, hc⟩
      by_cases hp : c.source.IsBoundary p
      · have hs : Cursor.startAt c.source p = .ok ⟨c.source, p, .default⟩ :=
          Cursor.startAt_eq_ok_iff.2 ⟨hp, rfl⟩
        rw [hs]
        exact .ok ⟨rfl, I.jump hn hc hs⟩
      · rw [Cursor.startAt, if_neg hp]
        exact .error ⟨rfl, I.invalidStart hn hc⟩
    failAt := by
      rintro c _ p expected kind limit hn ⟨rfl, hc⟩
      exact ⟨rfl, I.failAt hn hc⟩ }

variable {I} {rules : Rules} (hr : rules.All I.node I.step) {g : Grammar}
  (hg : g.all I.node I.step = true) {c : Cursor} (hc : I.cursor c) {n : Nat}

include hr hg hc

/-- What holds of the cursor at the start of a run holds of the cursor that comes back. -/
theorem next {v : Value} {d : Cursor} (h : (meaning rules n).parser g c = .ok (v, d)) :
    I.cursor d :=
  have hrun : I.simulation.Meanings (meaning rules n) := Simulation.run hr n
  ((hrun.parser g hg).next ⟨rfl, hc⟩ h).2

theorem of_error {e : ParseError} (h : (meaning rules n).parser g c = .error e) : I.error e := by
  have hrun : I.simulation.Meanings (meaning rules n) := Simulation.run hr n
  rcases (hrun.parser g hg).error ⟨rfl, hc⟩ h with he | he
  · exact he.2
  · cases he

/-- What holds of the cursor at the start of a run holds of every cursor on its record. -/
theorem of_record {e : Event} (he : e ∈ g.record rules n c) {d : Cursor} (hd : d ∈ e.cursors) :
    I.cursor d :=
  have hself : I.simulation.cursor c c := ⟨rfl, hc⟩
  (Simulation.tracks_record (S := I.simulation) hr hg hself n e he d hd).2

end Invariant

end Backtrack
