/-
Left recursion is the only way to hang. The rules of a grammar may be ranked so that, where its
reading started, a rule asks only for rules of a lower rank; behind that it may ask for any. Main
statement: then every run returns, after finitely many calls, and in particular every run of a
grammar that refers to no rule (`returns_of_ranked`).

What decreases is first the text that is left, then the rank of the rule, and then the grammar
itself. An iteration that moves leaves less text, and one that does not is the last.
-/
import Backtrack.Proofs.Agreement
import Backtrack.Proofs.Completion
import Backtrack.Proofs.References

namespace Backtrack

/-! ## Events in the long run -/

/-- Each event of the logs has a property, from some budget on. -/
def Eventually (Q : Event → Prop) (log : Nat → List Event) : Prop :=
  ∃ n, ∀ m, n ≤ m → ∀ e ∈ log m, Q e

namespace Eventually

variable {α β : Type} {Q : Event → Prop} {l k : Nat → List Event}

theorem of_append (h : Eventually Q fun n => l n ++ k n) : Eventually Q l ∧ Eventually Q k := by
  obtain ⟨n, h⟩ := h
  exact ⟨⟨n, fun m hm e he => h m hm e (List.mem_append_left _ he)⟩,
    ⟨n, fun m hm e he => h m hm e (List.mem_append_right _ he)⟩⟩

theorem of_cons {e : Nat → Event} (h : Eventually Q fun n => e n :: l n) : Eventually Q l := by
  obtain ⟨n, h⟩ := h
  exact ⟨n, fun m hm e he => h m hm e (List.mem_cons_of_mem _ he)⟩

theorem succ (h : Eventually Q l) : Eventually Q fun n => l (n + 1) := by
  obtain ⟨n, h⟩ := h
  exact ⟨n, fun m hm => h (m + 1) (by omega)⟩

theorem of_succ (h : Eventually Q fun n => l (n + 1)) : Eventually Q l := by
  obtain ⟨n, h⟩ := h
  refine ⟨n + 1, fun m hm => ?_⟩
  obtain ⟨k, rfl⟩ : ∃ k, m = k + 1 := ⟨m - 1, by omega⟩
  exact h k (by omega)

/-- One sequence of logs is another one as soon as something that they depend on has settled. -/
theorem congr {f : Nat → α} {a : α} (hf : Settles f a) (h : ∀ n, f n = a → l n = k n)
    (hl : Eventually Q l) : Eventually Q k := by
  obtain ⟨n₁, hf⟩ := hf
  obtain ⟨n₂, hl⟩ := hl
  refine ⟨max n₁ n₂, fun m hm e he => hl m (by omega) e ?_⟩
  rw [h m (hf m (by omega))]
  exact he

theorem of_thenRecord {f : Nat → Outcome α} {a : α} {k : Nat → α → List Event}
    (hf : Settles f (.ok a)) (h : Eventually Q fun n => (f n).thenRecord (k n)) :
    Eventually Q fun n => k n a :=
  h.congr hf fun n hn => by rw [hn, Outcome.thenRecord]

theorem of_body {b : Nat → Body α} {s t : Scope} {a : α} {k : Nat → α → Scope → List Event}
    (hb : Settles (fun n => b n s) (.ok a, t)) (h : Eventually Q fun n => (b n).thenRecord s (k n)) :
    Eventually Q fun n => k n a t :=
  h.congr hb fun n hn => by rw [Body.thenRecord, hn]

theorem of_around {g : Grammar} {p : Nat → Parser Value} {inside : Nat → Cursor → List Event}
    {c : Cursor} (h : Eventually Q fun n => Event.around g (p n) (inside n) c) :
    Eventually Q fun n => inside n c :=
  h.of_cons.of_append.1

section

variable {rules : Rules} {g : Grammar} {c : Cursor}

/-- What goes on record inside a call. -/
theorem inside (h : Eventually Q fun n => g.ownRecord rules n c) :
    Eventually Q fun n =>
      Recording.ownCalls rules n (meaning rules n) (ownRecording rules n) g c :=
  h.succ.of_around

/-- What goes on record in the first iteration of a repetition. -/
theorem first (h : Eventually Q fun n =>
      Recording.iterate (meaning rules n) (ownRecording rules n) g n c) :
    Eventually Q fun n => g.ownRecord rules n c :=
  of_succ h.succ.of_append.1

end

end Eventually

/-! ## Grammars whose references halt -/

/-- The rules are admitted, and all grammars that are halt where they start at or behind a position
of a text. -/
structure HaltsFrom (rules : Rules) (t : Text) (p : Nat) : Prop where
  admitted : rules.All rules.admits Step.isBounded
  halts : ∀ g : Grammar, g.all rules.admits Step.isBounded = true → ∀ c : Cursor, c.Within t p →
    Halts fun n => (meaning rules n).parser g c

/-- If the event is the call of a rule at a position then the rule halts there. -/
def Event.Answered (rules : Rules) (t : Text) (p : Nat) (e : Event) : Prop :=
  ∀ name c, e = .call (.ref name) c → rules.admits (.ref name) = true → c.Within t p →
    c.position = p → Halts fun n => (meaning rules n).parser (.ref name) c

section

variable {rules : Rules} {t : Text} {p : Nat} {g : Grammar} {c : Cursor}

/-- A run that started at or behind a position ended there too. -/
theorem Grammar.ComesTo.within (hr : rules.All rules.admits Step.isBounded) {start : Nat}
    (hg : g.all rules.admits Step.isBounded = true) (hc : c.Within t start) {v : Value} {d : Cursor}
    (h : g.ComesTo rules c (.ok (v, d))) : d.Within t start := by
  obtain ⟨n, h⟩ := h
  exact Invariant.next (I := .onward rules t start) hr hg hc (h n (Nat.le_refl n))

theorem HaltsFrom.of_lt (hbehind : HaltsFrom rules t (p + 1))
    (hg : g.all rules.admits Step.isBounded = true) {start : Nat} (hc : c.Within t start)
    (hp : p < c.position) : Halts fun n => (meaning rules n).parser g c :=
  hbehind.halts g hg c ⟨hc.source, hc.position.boundary, hp, hc.position.le_size⟩

/-- A repetition that starts at a position halts if all grammars do behind it. -/
theorem HaltsFrom.iterate (hbehind : HaltsFrom rules t (p + 1))
    (hg : g.all rules.admits Step.isBounded = true) (hc : c.Within t p)
    (hfirst : Halts fun n => (meaning rules n).parser g c) :
    Halts fun n => Parser.iterate n ((meaning rules n).parser g) c := by
  refine halts_iterate hfirst fun v d hrun hmoved => halts_iterate_of_many ?_
  have hd : d.Within t c.position := by
    refine hrun.within hbehind.admitted hg ⟨hc.source, ?_⟩
    exact ⟨hc.position.boundary, Nat.le_refl _, hc.position.le_size⟩
  have hmany : (Grammar.many g).all rules.admits Step.isBounded = true := by
    simp only [Grammar.all, Rules.admits, Bool.true_and, hg]
  -- the first iteration moved, so the others start behind the position
  refine hbehind.of_lt hmany hd ?_
  have hle := hc.position.start_le
  have hlt := hd.position.start_le
  omega

/-- A body that is alike to itself left a scope that is. -/
theorem scopes_of_settles {S : Simulation} {α : Type} {R : α → α → Prop} {b : Nat → Body α}
    (hb : ∀ n, S.Bodies R (b n) (b n)) {s u : Scope} (hs : S.Scopes s s) {a : α}
    (h : Settles (fun n => b n s) (.ok a, u)) : R a a ∧ S.Scopes u u := by
  obtain ⟨n, h⟩ := h
  exact (hb n).next hs (h n (Nat.le_refl n))

/-- The scope stands at or behind a position of a text. -/
abbrev Scope.Within (rules : Rules) (t : Text) (start : Nat) (s : Scope) : Prop :=
  (Invariant.onward rules t start).simulation.Scopes s s

mutual

/-- A grammar halts at or behind a position if the rules do that it asks for there itself. -/
theorem Grammar.halts (hbehind : HaltsFrom rules t (p + 1)) : ∀ (g : Grammar) {c : Cursor},
    g.all rules.admits Step.isBounded = true → c.Within t p →
    Eventually (Event.Answered rules t p) (fun n => g.ownRecord rules n c) →
    Halts fun n => (meaning rules n).parser g c
  | .literal s, c, _, _, _ =>
    halts_of_layer ((halts_const (answers_literal s c).returned).map Value.text)
  | .char keep expected, c, _, _, _ => by
    have hrun := halts_const (answers_char keep expected c).returned
    exact halts_of_layer (hrun.map fun ch => Value.text [ch])
  | .endOfInput, c, _, _, _ => by
    have hrun := halts_const (answers_endOfInput c).returned
    exact halts_of_layer (hrun.map fun _ => Value.unit)
  | .number, c, _, _, _ => halts_of_layer ((halts_number c).map Value.int)
  | .takeWhile _, _, _, _, _ | .succeed _, _, _, _, _ | .fail _, _, _, _, _
  | .failAt .., _, _, _, _ | .abort _, _, _, _, _ | .configure _, _, _, _, _ =>
    halts_of_layer (halts_const nofun)
  | .jump _, _, hg, _, _ => by cases hg
  | .nonEmpty g, c, hg, hc, h => by
    simp only [Grammar.all, Bool.and_eq_true] at hg
    exact halts_of_layer ((Grammar.halts hbehind g hg.2 hc h.inside).refuseEmpty _)
  | .map g f, c, hg, hc, h => by
    simp only [Grammar.all, Bool.and_eq_true] at hg
    exact halts_of_layer ((Grammar.halts hbehind g hg.2 hc h.inside).map _)
  | .convert g f, c, hg, hc, h => by
    simp only [Grammar.all, Bool.and_eq_true] at hg
    exact halts_of_layer ((Grammar.halts hbehind g hg.2 hc h.inside).convert _)
  | .and a b, c, hg, hc, h => by
    simp only [Grammar.all, Bool.and_eq_true] at hg
    obtain ⟨ha, hb⟩ := Eventually.of_append h.inside
    refine halts_of_layer (Halts.map ((Grammar.halts hbehind a hg.2.1 hc ha).bind ?_) _)
    intro r hrun
    have hd : r.2.Within t p := Grammar.ComesTo.within hbehind.admitted hg.2.1 hc hrun
    -- the second grammar goes on record only once the first has settled
    have hb := Eventually.of_thenRecord hrun hb
    exact (Grammar.halts hbehind b hg.2.2 hd hb).bind fun _ _ => halts_const nofun
  | .many g, c, hg, hc, h => by
    simp only [Grammar.all, Bool.and_eq_true] at hg
    have hfirst := Grammar.halts hbehind g hg.2 hc (.first h.inside)
    exact halts_of_layer ((halts_many (hbehind.iterate hg.2 hc hfirst)).map _)
  | .many1 g, c, hg, hc, h => by
    simp only [Grammar.all, Bool.and_eq_true] at hg
    have hfirst := Grammar.halts hbehind g hg.2 hc (.first h.inside)
    exact halts_of_layer ((halts_many1 (hbehind.iterate hg.2 hc hfirst)).map _)
  | .choice gs message, c, hg, hc, h => by
    simp only [Grammar.all, Bool.and_eq_true] at hg
    have hrun := Grammar.halts_attempts hbehind gs hg.2 hc h.inside
    exact halts_of_layer ((halts_choice message hrun).map _)
  | .alt gs message, c, hg, hc, h => by
    simp only [Grammar.all, Bool.and_eq_true] at hg
    have hrun := Grammar.halts_attempts hbehind gs hg.2 hc h.inside
    exact halts_of_layer (halts_alt message hrun)
  | .block xs result, c, hg, hc, h => by
    simp only [Grammar.all, Bool.and_eq_true] at hg
    have hs : Scope.Within rules t p (.enter c) := ⟨⟨rfl, hc⟩, .nil⟩
    have hrun : Body.Halts (fun n => (meaning rules n).body xs) (.enter c) :=
      .of_succ (Step.halts_sequence hbehind xs hg.2 hs h.inside.succ)
    refine halts_of_layer (Halts.ofBody (hrun.bind fun _ u _ => .of_const ?_))
    cases result <;> nofun
  | .ref name, c, hg, hc, h => by
    by_cases hp : c.position = p
    · -- the call of the rule is itself on record
      obtain ⟨n, h⟩ := h
      exact h (n + 1) (by omega) (.call (.ref name) c) List.mem_cons_self name c rfl hg hc hp
    · have hle := hc.position.start_le
      exact hbehind.of_lt hg hc (by omega)

theorem Grammar.halts_attempts (hbehind : HaltsFrom rules t (p + 1)) :
    ∀ (gs : List Grammar) {c : Cursor},
    Grammar.allIn rules.admits Step.isBounded gs = true → c.Within t p →
    Eventually (Event.Answered rules t p)
      (fun n => Recording.attempts (meaning rules n) (ownRecording rules n) gs c) →
    Halts fun n => Parser.attempts (gs.map (meaning rules n).parser) c
  | [], _, _, _, _ => halts_const nofun
  | g :: gs, c, hg, hc, h => by
    simp only [Grammar.allIn, Bool.and_eq_true] at hg
    obtain ⟨hfirst, hrest⟩ := Eventually.of_append h
    refine halts_attempts_cons (Grammar.halts hbehind g hg.1 hc hfirst) fun f hf => ?_
    exact Grammar.halts_attempts hbehind gs hg.2 hc (hrest.congr hf fun n hn => by rw [hn])

theorem Step.halts (hbehind : HaltsFrom rules t (p + 1)) : ∀ (x : Step) {s : Scope},
    x.all rules.admits Step.isBounded = true → s.Within rules t p →
    Eventually (Event.Answered rules t p)
      (fun n => Recording.step n (meaning rules n) (ownRecording rules n) x s) →
    Body.Halts (fun n => x.layer n (meaning rules n)) s
  | .run g, s, hx, hs, h => by
    simp only [Step.all, Bool.and_eq_true] at hx
    have hg := Grammar.halts hbehind g hx.2 hs.cursor.2 h
    exact (Body.Halts.run hg).bind fun _ _ _ => .of_const nofun
  | .skip g, s, hx, hs, h => by
    simp only [Step.all, Bool.and_eq_true] at hx
    have hg := Grammar.halts hbehind g hx.2 hs.cursor.2 h
    exact (Body.Halts.run hg).bind fun _ _ _ => .of_const nofun
  | .attempt g, s, hx, hs, h => by
    simp only [Step.all, Bool.and_eq_true] at hx
    have hg := Grammar.halts hbehind g hx.2 hs.cursor.2 h
    refine (Body.Halts.run hg).catching.bind fun r _ _ => ?_
    cases r <;> exact .of_const nofun
  | .peek g, s, hx, hs, h => by
    simp only [Step.all, Bool.and_eq_true] at hx
    have hg := Grammar.halts hbehind g hx.2 hs.cursor.2 h
    exact (Body.Halts.peek hg).bind fun _ _ _ => .of_const nofun
  | .state, _, _, _, _ | .fail _, _, _, _, _ | .abort _, _, _, _, _ => .of_const nofun
  | .requireEnd expected, s, _, _, _ => by
    have hcursor : Body.Halts (fun _ => Body.cursor) s := .of_const nofun
    refine hcursor.bind fun d _ _ => ?_
    split <;> exact .of_const nofun
  | .ifMatch g yes no, s, hx, hs, h => by
    simp only [Step.all, Bool.and_eq_true] at hx
    obtain ⟨htest, hrest⟩ := Eventually.of_append h
    have hg := Grammar.halts hbehind g hx.2.1 hs.cursor.2 htest.of_around
    have hrun : Body.Halts (fun n => Body.run (Parser.optional ((meaning rules n).parser g))) s :=
      .run (halts_optional hg)
    refine hrun.bind fun found u hfound => ?_
    have hrest := Eventually.of_body hfound hrest
    have hm := Simulation.run (S := (Invariant.onward rules t p).simulation) hbehind.admitted
    -- the test leaves the scope at or behind the position, so what follows may start there
    obtain ⟨hv, hu⟩ := scopes_of_settles
      (fun n => .run (Simulation.optional ((hm n).parser g hx.2.1))) hs hfound
    cases hv with
    | @some v _ hv =>
      have hpush : Scope.Within rules t p { u with pushed := u.pushed ++ [v] } :=
        ⟨hu.cursor, List.rel_append hu.pushed (.cons hv .nil)⟩
      have hyes : Body.Halts (fun n => (meaning rules n).body yes) _ :=
        .of_succ (Step.halts_sequence hbehind yes hx.2.2.1 hpush hrest.succ)
      exact hyes
    | none => exact .of_succ (Step.halts_sequence hbehind no hx.2.2.2 hu hrest.succ)
  | .whileMatch .., _, hx, _, _ => by cases hx

theorem Step.halts_sequence (hbehind : HaltsFrom rules t (p + 1)) : ∀ (xs : List Step) {s : Scope},
    Step.allIn rules.admits Step.isBounded xs = true → s.Within rules t p →
    Eventually (Event.Answered rules t p)
      (fun n => Recording.steps n (meaning rules n) (ownRecording rules n) xs s) →
    Body.Halts (fun n => Step.sequence n (meaning rules n) xs) s
  | [], _, _, _, _ => .of_const nofun
  | x :: xs, s, hx, hs, h => by
    simp only [Step.allIn, Bool.and_eq_true] at hx
    obtain ⟨hstep, hrest⟩ := Eventually.of_append h
    refine (Step.halts hbehind x hx.1 hs hstep.of_cons).bind fun _ u hu => ?_
    have hrest := Eventually.of_body hu hrest
    have hm := Simulation.run (S := (Invariant.onward rules t p).simulation) hbehind.admitted
    obtain ⟨-, hscope⟩ := scopes_of_settles
      (fun n => Simulation.step_layer (hm n) n hx.1) hs hu
    exact Step.halts_sequence hbehind xs hx.2 hscope hrest

end

end

/-! ## Ranked rules -/

/-- Where the reading of a rule started, only rules of a lower rank are asked for. -/
def Rules.RankedBy (rules : Rules) (t : Text) (rank : String → Nat) : Prop :=
  ∀ name g, rules name = some g → ∀ c : Cursor, c.source = t → c.IsValid →
    ∀ other d, g.AsksFor rules c other d → d.position = c.position → rank other < rank name

section

variable {rules : Rules} {t : Text} {p : Nat} {rank : String → Nat}

/-- A rule halts at a position if all grammars do behind it: by induction on its rank. -/
theorem halts_ref (hrank : rules.RankedBy t rank) (hbehind : HaltsFrom rules t (p + 1)) :
    ∀ (r : Nat) {name : String} {c : Cursor}, rank name < r → rules.admits (.ref name) = true →
      c.Within t p → c.position = p → Halts fun n => (meaning rules n).parser (.ref name) c
  | r + 1, name, c, hlt, hname, hc, hp => by
    obtain ⟨g, hg⟩ := Option.isSome_iff_exists.1 hname
    refine halts_of_layer ?_
    simp only [Grammar.layer, Rules.parser, hg]
    refine Grammar.halts hbehind g (hbehind.admitted name g hg) hc ⟨0, fun n _ e he => ?_⟩
    -- what the rule asks for at this position has a lower rank
    rintro other d rfl hother hd hdp
    have hlower := hrank name g hg c hc.source hc.isValid other d ⟨n, he⟩ (hdp.trans hp.symm)
    exact halts_ref hrank hbehind r (by omega) hother hd hdp

/-- All grammars halt at or behind a position: by induction on the text that is left there. -/
theorem haltsFrom_of_ranked (hr : rules.All rules.admits Step.isBounded)
    (hrank : rules.RankedBy t rank) : ∀ (k p : Nat), t.size < p + k → HaltsFrom rules t p
  | 0, p, hp => by
    refine ⟨hr, fun g _ c hc => ?_⟩
    -- the position is behind the text, and no cursor is there
    have hstart := hc.position.start_le
    have hsize := hc.position.le_size
    omega
  | k + 1, p, hp => by
    have hbehind := haltsFrom_of_ranked hr hrank k (p + 1) (by omega)
    refine ⟨hr, fun g hg c hc => Grammar.halts hbehind g hg hc ⟨0, fun n _ e _ => ?_⟩⟩
    rintro name d rfl hname hd hdp
    exact halts_ref hrank hbehind _ (Nat.lt_succ_self _) hname hd hdp

end

/-! ## Returning -/

/-- The run comes to a value or to an error within some budget, and a larger one changes neither
that nor what is called. -/
def Grammar.Returns (rules : Rules) (g : Grammar) (c : Cursor) : Prop :=
  ∃ n, (meaning rules n).parser g c ≠ .unfinished ∧ ∀ m, n ≤ m →
    (meaning rules m).parser g c = (meaning rules n).parser g c ∧
      g.record rules m c = g.record rules n c

theorem Grammar.returns_of_halts {rules : Rules} {g : Grammar} {c : Cursor}
    (h : Halts fun n => (meaning rules n).parser g c) : g.Returns rules c := by
  obtain ⟨x, ⟨n, hx⟩, hne⟩ := h
  have hn : (meaning rules n).parser g c = x := hx n (Nat.le_refl n)
  have hreturned : (meaning rules n).parser g c ≠ .unfinished := by
    rw [hn]
    exact hne
  exact ⟨n, hreturned, fun m hm => ⟨(hx m hm).trans hn.symm, record_eq_of_returned hm hreturned⟩⟩

/-- The node is no jump and no reference. -/
def Grammar.isPlain : Grammar → Bool
  | .jump _ | .ref _ => false
  | _ => true

/-- All grammars halt if the rules are ranked. -/
theorem halts_of_ranked {rules : Rules} {rank : String → Nat} {c : Cursor}
    (hr : rules.All rules.admits Step.isBounded) (hrank : rules.RankedBy c.source rank)
    (hc : c.IsValid) {g : Grammar} (hg : g.all rules.admits Step.isBounded = true) :
    Halts fun n => (meaning rules n).parser g c := by
  have hall := haltsFrom_of_ranked hr hrank (c.source.size + 1) c.position (by omega)
  exact hall.halts g hg c hc.within

theorem Grammar.isPlain_eq_admits : Grammar.isPlain = Rules.admits fun _ => none := by
  funext g
  cases g <;> rfl

/-- Where there is no reference the rules do not matter, so there may as well be none. -/
theorem halts_of_plain {rules : Rules} {g : Grammar}
    (hg : g.all Grammar.isPlain Step.isBounded = true) {c : Cursor} (hc : c.IsValid) :
    Halts fun n => (meaning rules n).parser g c := by
  rw [Grammar.isPlain_eq_admits] at hg
  have hr : Rules.All (Rules.admits fun _ => none) Step.isBounded fun _ => none := nofun
  have hrank : Rules.RankedBy (fun _ => none) c.source fun _ => 0 := nofun
  obtain ⟨x, hx, hne⟩ := halts_of_ranked hr hrank hc hg
  -- within every budget the grammar means the same with and without the rules
  have hsame n : (meaning (fun _ => none) n).parser g = (meaning rules n).parser g :=
    (meaning_sameOn hr nofun n).parser g hg
  exact ⟨x, hx.congr (fun n hn => by rw [← hsame, hn]) (settles_const x), hne⟩

/-- Runs return if the rules are ranked, and if there is no reference to any. -/
theorem returns_of_ranked :
    (∀ (rules : Rules) (rank : String → Nat) (g : Grammar) (c : Cursor),
      rules.All rules.admits Step.isBounded → g.all rules.admits Step.isBounded = true →
        rules.RankedBy c.source rank → c.IsValid → g.Returns rules c) ∧
    ∀ (rules : Rules) (g : Grammar) (c : Cursor),
      g.all Grammar.isPlain Step.isBounded = true → c.IsValid → g.Returns rules c := by
  constructor
  · intro rules rank g c hr hg hrank hc
    exact Grammar.returns_of_halts (halts_of_ranked hr hrank hc hg)
  · intro rules g c hg hc
    exact Grammar.returns_of_halts (halts_of_plain hg hc)

/-- A value is a list, or any number of spans of digits. A list is any number of values in
brackets. -/
def lists : Rules
  | "value" => some (.alt [.ref "list", .many (.takeWhile isDigit)] none)
  | "list" => some (.and (.char (· == '[') "opening")
    (.and (.many (.ref "value")) (.char (· == ']') "closing")))
  | _ => none

theorem lists_admitted : lists.All lists.admits Step.isBounded := by
  intro name g h
  unfold lists at h
  split at h
  · cases h
    simp [Grammar.all, Grammar.allIn, Rules.admits, lists]
  · cases h
    simp [Grammar.all, Rules.admits, lists]
  · cases h

/-- A value asks for a list where it starts, and a list asks for values behind its bracket. -/
theorem lists_rankedBy (t : Text) :
    lists.RankedBy t fun name => if name = "value" then 1 else 0 := by
  intro name g hg c hs hc other d hask hd
  have hall := lists_admitted name g hg
  unfold lists at hg
  split at hg
  · cases hg
    obtain ⟨g, hg, hask⟩ := hask.alt
    simp only [List.mem_cons, List.not_mem_nil, or_false] at hg
    rcases hg with rfl | rfl
    · obtain ⟨rfl, -⟩ := hask.ref
      decide
    · obtain ⟨e, hask⟩ := hask.many
      rcases hask.inside with ⟨h, -⟩ | ⟨n, h⟩ <;> cases h
  · cases hg
    rcases hask.and with hask | ⟨n, r, hrun, hask⟩
    · rcases hask.inside with ⟨h, -⟩ | ⟨n, h⟩ <;> cases h
    · rw [Grammar.all, Bool.and_eq_true, Bool.and_eq_true] at hall
      obtain ⟨-, hbracket, hrest⟩ := hall
      have hr : r.2.Within c.source c.position :=
        Invariant.next (I := .onward lists _ _) lists_admitted hbracket hc.within hrun
      have hd := hask.within lists_admitted hrest hr.isValid.within
      have hlt := position_lt_of_char hrun
      have hle := hd.position.start_le
      omega
  · cases hg

/-- A list in a list returns though the digits in it may be none, and so does a repetition of
nothing but such digits. -/
theorem returns_of_ranked_lists :
    lists.All lists.admits Step.isBounded ∧
      lists.RankedBy "é[[7]".toList (fun name => if name = "value" then 1 else 0) ∧
      (Grammar.ref "value").all lists.admits Step.isBounded = true ∧
      (Grammar.many (.many (.takeWhile isDigit))).all Grammar.isPlain Step.isBounded = true ∧
      Cursor.IsValid ⟨"é[[7]".toList, 2, .default⟩ ∧
      (Grammar.ref "value").Returns lists ⟨"é[[7]".toList, 2, .default⟩ ∧
      (Grammar.many (.many (.takeWhile isDigit))).Returns lists ⟨"é[[7]".toList, 2, .default⟩ := by
  have hg : (Grammar.ref "value").all lists.admits Step.isBounded = true := rfl
  have hplain :
      (Grammar.many (.many (.takeWhile isDigit))).all Grammar.isPlain Step.isBounded = true := rfl
  have hc : Cursor.IsValid ⟨"é[[7]".toList, 2, .default⟩ := by decide
  have hrank := lists_rankedBy "é[[7]".toList
  have hreturns := returns_of_ranked.1 lists _ _ ⟨_, 2, .default⟩ lists_admitted hg hrank hc
  exact ⟨lists_admitted, hrank, hg, hplain, hc, hreturns, returns_of_ranked.2 lists _ _ hplain hc⟩

end Backtrack
