/-
Runs with growing budgets. What a run comes to is what its outcomes settle at: they are the same
from some budget on. Several runs are looked at with all budgets from some one on, so that they
need no common one.

A run halts if its outcomes settle at one that was returned. A combination of parsers halts if
each of them does that it comes to, and of a repetition the rest has to where an iteration moved
(`halts_iterate`).
-/
import Backtrack.Engine
import Backtrack.Grammar.Budget

namespace Backtrack

/-! ## What has returned -/

/-- What is at least a computation that returned is the same. -/
theorem Outcome.eq_of_le {α : Type} {x y : Outcome α} (h : x ≤ y) (hx : x ≠ .unfinished) : y = x := by
  rcases h with hu | heq
  · exact absurd hu hx
  · exact heq.symm

/-- A sequence has returned only if its parts have that were reached. -/
theorem Outcome.returned_of_bind {α β : Type} {x : Outcome α} {k : α → Outcome β}
    (h : (x >>= k) ≠ .unfinished) : x ≠ .unfinished ∧ ∀ a, x = .ok a → k a ≠ .unfinished := by
  constructor
  · rintro rfl
    exact h rfl
  · rintro a rfl
    exact h

theorem Outcome.returned_bind {α β : Type} {x : Outcome α} {k : α → Outcome β}
    (hx : x ≠ .unfinished) (hk : ∀ a, k a ≠ .unfinished) : (x >>= k) ≠ .unfinished := by
  cases x with
  | ok a => exact hk a
  | error e =>
    intro h
    cases h
  | unfinished => exact absurd rfl hx

theorem Body.eq_of_le {α : Type} {a b : Body α} (h : Body.Le a b) {s : Scope}
    (hs : (a s).1 ≠ .unfinished) : b s = a s := by
  rcases h s with hu | heq
  · exact absurd hu hs
  · exact heq.symm

theorem Body.returned_of_bind {α β : Type} {b : Body α} {k : α → Body β} {s : Scope}
    (h : ((b >>= k) s).1 ≠ .unfinished) :
    (b s).1 ≠ .unfinished ∧ ∀ a t, b s = (.ok a, t) → (k a t).1 ≠ .unfinished := by
  rw [Body.bind_apply] at h
  constructor
  · intro hu
    rcases hb : b s with ⟨x, t⟩
    rw [hb] at h hu
    cases hu
    exact h rfl
  · intro a t hb
    rw [hb] at h
    exact h

theorem Body.returned_of_run {α : Type} {p : Parser α} {s : Scope}
    (h : (Body.run p s).1 ≠ .unfinished) : p s.cursor ≠ .unfinished := by
  intro hp
  simp only [Body.run, hp, ne_eq, not_true_eq_false] at h

theorem Parser.returned_of_ofBody {α : Type} {b : Body α} {c : Cursor}
    (h : Parser.ofBody b c ≠ .unfinished) : (b (Scope.enter c)).1 ≠ .unfinished := by
  intro hb
  rcases hx : b (Scope.enter c) with ⟨x, t⟩
  rw [hx] at hb
  cases hb
  simp only [Parser.ofBody, hx, ne_eq, not_true_eq_false] at h

/-! ## Outcomes for all large budgets -/

/-- The outcomes of a run with growing budgets are the same from some budget on. -/
def Settles {α : Type} (f : Nat → α) (a : α) : Prop := ∃ n, ∀ m, n ≤ m → f m = a

section

variable {α β : Type} {f k l : Nat → α} {a b : α}

theorem settles_const (a : α) : Settles (fun _ => a) a := ⟨0, fun _ _ => rfl⟩

/-- One sequence is another one as soon as a third has settled. -/
theorem Settles.congr {g : Nat → β} {y : β} (hg : Settles g y) (h : ∀ n, g n = y → k n = l n)
    (hl : Settles l a) : Settles k a := by
  obtain ⟨n₁, hg⟩ := hg
  obtain ⟨n₂, hl⟩ := hl
  refine ⟨max n₁ n₂, fun m hm => ?_⟩
  rw [h m (hg m (by omega)), hl m (by omega)]

/-- A sequence settles as soon as one that decides it has settled. -/
theorem Settles.of_eq {g : Nat → β} {y : β} (hg : Settles g y) (h : ∀ n, g n = y → k n = a) :
    Settles k a :=
  hg.congr h (settles_const a)

theorem Settles.unique (ha : Settles f a) (hb : Settles f b) : a = b := by
  obtain ⟨n₁, ha⟩ := ha
  obtain ⟨n₂, hb⟩ := hb
  rw [← ha (max n₁ n₂) (by omega), hb (max n₁ n₂) (by omega)]

theorem Settles.iff_eq (h : Settles f a) : Settles f b ↔ a = b := by
  constructor
  · exact h.unique
  · rintro rfl
    exact h

theorem Settles.succ (h : Settles f a) : Settles (fun n => f (n + 1)) a := by
  obtain ⟨n, h⟩ := h
  exact ⟨n, fun m hm => h (m + 1) (by omega)⟩

theorem Settles.of_succ (h : Settles (fun n => f (n + 1)) a) : Settles f a := by
  obtain ⟨n, h⟩ := h
  refine ⟨n + 1, fun m hm => ?_⟩
  obtain ⟨k, rfl⟩ : ∃ k, m = k + 1 := ⟨m - 1, by omega⟩
  exact h k (by omega)

/-- A sequence that only goes up from computations that did not return settles where it returns. -/
theorem settles_of_le {f : Nat → Outcome α} (h : ∀ {m n}, m ≤ n → f m ≤ f n) {n : Nat}
    (hn : f n ≠ .unfinished) : Settles f (f n) :=
  ⟨n, fun _ hm => Outcome.eq_of_le (h hm) hn⟩

/-- A sequence that only goes up settles, at what is returned or at not returning. -/
theorem exists_settles {f : Nat → Outcome α} (h : ∀ m n, m ≤ n → f m ≤ f n) :
    ∃ x, Settles f x := by
  by_cases hn : ∃ n, f n ≠ .unfinished
  · obtain ⟨n, hn⟩ := hn
    exact ⟨f n, settles_of_le (fun hmn => h _ _ hmn) hn⟩
  · exact ⟨.unfinished, 0, fun m _ => Classical.not_not.1 (not_exists.1 hn m)⟩

/-- Computations one after the other settle if the first does, and the second on what it gives. -/
theorem Settles.bind {f : Nat → Outcome α} {k : Nat → α → Outcome β} {x : Outcome α}
    {l : α → Outcome β} (hf : Settles f x)
    (hk : ∀ a, x = .ok a → Settles (fun n => k n a) (l a)) :
    Settles (fun n => f n >>= k n) (x >>= l) := by
  cases x with
  | ok a => exact hf.congr (fun n hn => by rw [hn, Outcome.ok_bind]) (hk a rfl)
  | error e =>
    refine hf.congr (l := fun _ => .error e) (fun n hn => ?_) (settles_const _)
    rw [hn, Outcome.error_bind]
  | unfinished =>
    refine hf.congr (l := fun _ => .unfinished) (fun n hn => ?_) (settles_const _)
    rw [hn, Outcome.unfinished_bind]

end

/-- The engine of a grammar, within a budget. -/
def Grammar.engine (rules : Rules) (config : Config) (n : Nat) (g : Grammar) : Engine Value :=
  ⟨(meaning rules n).parser g, config⟩

/-- The outcome of the run of a grammar, for all budgets that are large enough. -/
def Grammar.ComesTo (rules : Rules) (g : Grammar) (c : Cursor)
    (x : Outcome (Value × Cursor)) : Prop :=
  Settles (fun n => (meaning rules n).parser g c) x

section

variable {rules : Rules} {g : Grammar} {c : Cursor} {x : Outcome (Value × Cursor)}

/-- A run that returns within some budget comes to that. -/
theorem Grammar.comesTo_of_run {n : Nat} (h : (meaning rules n).parser g c = x)
    (hx : x ≠ .unfinished) : g.ComesTo rules c x := by
  subst h
  exact settles_of_le (fun hmn => (meaning_mono rules hmn).parser g c) hx

theorem Grammar.comesTo_of_layer
    (h : Settles (fun n => g.layer rules n (meaning rules n) c) x) : g.ComesTo rules c x :=
  Settles.of_succ h

/-- A larger budget keeps what a repetition came to. -/
theorem iterate_mono {m n : Nat} (hmn : m ≤ n) :
    Parser.iterate m ((meaning rules m).parser g) c ≤
      Parser.iterate n ((meaning rules n).parser g) c :=
  Parser.iterate_le_iterate ((meaning_mono rules hmn).parser g) hmn c

/-- A repetition goes on from where its first iteration ended. -/
theorem settles_iterate_moved {v : Value} {d : Cursor} {r : Outcome (Repetition Value)}
    (hg : g.ComesTo rules c (.ok (v, d))) (hd : d.position ≠ c.position) (hr : r ≠ .unfinished)
    (h : Settles (fun n => Parser.iterate n ((meaning rules n).parser g) d) r) :
    Settles (fun n => Parser.iterate n ((meaning rules n).parser g) c)
      (r >>= fun r => .ok { r with values := v :: r.values }) := by
  obtain ⟨n₁, hg⟩ := hg
  obtain ⟨n₂, h⟩ := h
  refine ⟨max n₁ n₂ + 1, fun k hk => ?_⟩
  obtain ⟨k, rfl⟩ : ∃ k', k = k' + 1 := ⟨k - 1, by omega⟩
  have hrest : Parser.iterate k ((meaning rules (k + 1)).parser g) d = r := by
    have hk : Parser.iterate k ((meaning rules k).parser g) d = r := h k (by omega)
    rw [← hk] at hr ⊢
    -- one more turn for the grammar does not change what the iterations came to
    have hle := (meaning_mono rules (Nat.le_succ k)).parser g
    exact Outcome.eq_of_le (Parser.iterate_le_iterate hle (Nat.le_refl k) d) hr
  show Parser.iterate (k + 1) ((meaning rules (k + 1)).parser g) c = _
  rw [Parser.iterate_succ_moved k (hg (k + 1) (by omega)) hd, hrest]

end

/-! ## Halting -/

/-- The outcomes settle at one that was returned. -/
def Halts {α : Type} (f : Nat → Outcome α) : Prop := ∃ x, Settles f x ∧ x ≠ .unfinished

section

variable {α β γ : Type} {f l : Nat → Outcome α}

theorem halts_const {x : Outcome α} (hx : x ≠ .unfinished) : Halts fun _ => x :=
  ⟨x, settles_const x, hx⟩

theorem Halts.congr {g : Nat → γ} {y : γ} (hg : Settles g y) (h : ∀ n, g n = y → f n = l n)
    (hl : Halts l) : Halts f := by
  obtain ⟨x, hx, hne⟩ := hl
  exact ⟨x, hg.congr h hx, hne⟩

theorem Halts.of_succ (h : Halts fun n => f (n + 1)) : Halts f := by
  obtain ⟨x, hx, hne⟩ := h
  exact ⟨x, hx.of_succ, hne⟩

/-- A computation that halts, and another one that does so from whatever the first one gives. -/
theorem Halts.bind {k : Nat → α → Outcome β} (hf : Halts f)
    (hk : ∀ a, Settles f (.ok a) → Halts fun n => k n a) : Halts fun n => f n >>= k n := by
  obtain ⟨x, hx, hne⟩ := hf
  cases x with
  | ok a => exact .congr hx (fun n hn => by rw [hn, Outcome.ok_bind]) (hk a hx)
  | error e =>
    refine .congr hx (l := fun _ => .error e) (fun n hn => ?_) (halts_const nofun)
    rw [hn, Outcome.error_bind]
  | unfinished => exact absurd rfl hne

theorem Halts.map {p : Nat → Parser α} {c : Cursor} (h : Halts fun n => p n c) (f : α → β) :
    Halts fun n => (p n).map f c :=
  h.bind fun _ _ => halts_const nofun

end

/-- The bodies settle at an outcome that was returned and at the scope that they left. -/
def Body.Halts {α : Type} (b : Nat → Body α) (s : Scope) : Prop :=
  ∃ x t, Settles (fun n => b n s) (x, t) ∧ x ≠ .unfinished

namespace Body.Halts

variable {α β γ : Type} {b b' : Nat → Body α} {s t : Scope}

theorem of_const {b : Body α} (h : (b s).1 ≠ .unfinished) : Body.Halts (fun _ => b) s :=
  ⟨_, _, settles_const (b s), h⟩

theorem congr {g : Nat → γ} {y : γ} (hg : Settles g y) (h : ∀ n, g n = y → b n s = b' n t)
    (hb : Body.Halts b' t) : Body.Halts b s := by
  obtain ⟨x, u, hx, hne⟩ := hb
  exact ⟨x, u, hg.congr h hx, hne⟩

theorem of_succ (h : Body.Halts (fun n => b (n + 1)) s) : Body.Halts b s := by
  obtain ⟨x, t, hx, hne⟩ := h
  exact ⟨x, t, hx.of_succ, hne⟩

/-- A body is done as soon as something that it depends on has settled. -/
theorem of_settles {g : Nat → γ} {y : γ} (hg : Settles g y) {x : Outcome α}
    (h : ∀ n, g n = y → b n s = (x, t)) (hx : x ≠ .unfinished) : Body.Halts b s :=
  ⟨x, t, hg.congr h (settles_const (x, t)), hx⟩

theorem bind {k : Nat → α → Body β} (hb : Body.Halts b s)
    (hk : ∀ a t, Settles (fun n => b n s) (.ok a, t) → Body.Halts (fun n => k n a) t) :
    Body.Halts (fun n => b n >>= k n) s := by
  obtain ⟨x, t, hx, hne⟩ := hb
  cases x with
  | ok a => exact .congr hx (fun n hn => by rw [Body.bind_apply, hn]) (hk a t hx)
  | error e =>
    refine .of_settles hx (t := t) (x := .error e) (fun n hn => ?_) nofun
    rw [Body.bind_apply, hn]
  | unfinished => exact absurd rfl hne

theorem run {p : Nat → Parser α} (h : Backtrack.Halts fun n => p n s.cursor) :
    Body.Halts (fun n => Body.run (p n)) s := by
  obtain ⟨x, hx, hne⟩ := h
  cases x with
  | ok r =>
    refine .of_settles hx (t := { s with cursor := r.2 }) (x := .ok r.1) (fun n hn => ?_) nofun
    simp only [Body.run, hn]
  | error e =>
    refine .of_settles hx (t := s) (x := .error e) (fun n hn => ?_) nofun
    simp only [Body.run, hn]
  | unfinished => exact absurd rfl hne

theorem peek {p : Nat → Parser α} (h : Backtrack.Halts fun n => p n s.cursor) :
    Body.Halts (fun n => Body.peek (p n)) s := by
  have hvalue : Backtrack.Halts fun n => p n s.cursor >>= fun r => .ok r.1 :=
    h.bind fun _ _ => halts_const nofun
  obtain ⟨x, hx, hne⟩ := hvalue
  exact .of_settles hx (t := s) (fun n hn => Prod.ext hn rfl) hne

theorem catching (h : Body.Halts b s) : Body.Halts (fun n => Body.catching (b n)) s := by
  obtain ⟨x, t, hx, hne⟩ := h
  cases x with
  | ok a =>
    refine .of_settles hx (t := t) (x := .ok (.ok a)) (fun n hn => ?_) nofun
    simp only [Body.catching, hn]
  | error e =>
    refine .of_settles hx (t := t) (x := .ok (.error e)) (fun n hn => ?_) nofun
    simp only [Body.catching, hn]
  | unfinished => exact absurd rfl hne

end Body.Halts

/-- The parser of a body that halts does so. -/
theorem Halts.ofBody {α : Type} {b : Nat → Body α} {c : Cursor}
    (h : Body.Halts b (Scope.enter c)) : Halts fun n => Parser.ofBody (b n) c := by
  obtain ⟨x, t, hx, hne⟩ := h
  refine .congr hx (l := fun _ => x >>= fun a => .ok (a, t.cursor)) (fun n hn => ?_)
    ((halts_const hne).bind fun _ _ => halts_const nofun)
  simp only [Parser.ofBody, hn]
  cases x <;> rfl

/-! ## Combinators -/

section

variable {α : Type} {p : Nat → Parser α} {ps : Nat → List (Parser α)} {c : Cursor}

theorem halts_attempts_cons (hp : Halts fun n => p n c)
    (hps : ∀ f, Settles (fun n => p n c) (.error (.failure f)) →
      Halts fun n => Parser.attempts (ps n) c) :
    Halts fun n => Parser.attempts (p n :: ps n) c := by
  obtain ⟨x, hx, hne⟩ := hp
  cases x with
  | ok r => exact .congr hx (fun n hn => Parser.attempts_cons_ok hn) (halts_const nofun)
  | error e =>
    cases e with
    | failure f =>
      refine .congr hx (fun n hn => Parser.attempts_cons_failure hn) ((hps f hx).bind fun a _ => ?_)
      cases a <;> exact halts_const nofun
    | _ => exact .congr hx (fun n hn => Parser.attempts_cons_fatal hn rfl) (halts_const nofun)
  | unfinished => exact absurd rfl hne

theorem halts_choice (message : Option String) (h : Halts fun n => Parser.attempts (ps n) c) :
    Halts fun n => Parser.choice (ps n) message c :=
  h.bind fun a _ => by
    cases a with
    | matched v d => exact halts_const nofun
    | missed fs =>
      simp only
      split <;> exact halts_const nofun

theorem halts_alt (message : Option String) (h : Halts fun n => Parser.attempts (ps n) c) :
    Halts fun n => Parser.alt (ps n) message c :=
  h.bind fun a _ => by
    cases a with
    | matched v d => exact halts_const nofun
    | missed fs =>
      simp only
      split
      · exact halts_const nofun
      · cases fs <;> exact halts_const nofun

theorem halts_attempts_singleton (h : Halts fun n => p n c) :
    Halts fun n => Parser.attempts [p n] c := by
  have hnil : Halts fun _ => Parser.attempts ([] : List (Parser α)) c := halts_const nofun
  exact halts_attempts_cons h fun _ _ => hnil

theorem halts_optional (h : Halts fun n => p n c) : Halts fun n => Parser.optional (p n) c :=
  halts_choice none (halts_attempts_singleton h)

theorem Halts.refuseEmpty (empty : α → Bool) (h : Halts fun n => p n c) :
    Halts fun n => Parser.refuseEmpty empty (p n) c :=
  h.bind fun r _ => by
    simp only
    split <;> exact halts_const nofun

theorem Halts.convert {β : Type} (f : α → Except String β) (h : Halts fun n => p n c) :
    Halts fun n => (p n).convert f c :=
  h.bind fun r _ => by
    simp only
    split <;> exact halts_const nofun

theorem halts_many (h : Halts fun n => Parser.iterate n (p n) c) :
    Halts fun n => Parser.many n (p n) c :=
  h.bind fun _ _ => halts_const nofun

theorem halts_many1 (h : Halts fun n => Parser.iterate n (p n) c) :
    Halts fun n => Parser.many1 n (p n) c :=
  h.bind fun r _ => by
    split <;> exact halts_const nofun

end

section

variable {rules : Rules} {g : Grammar} {c : Cursor}

theorem halts_of_layer (h : Halts fun n => g.layer rules n (meaning rules n) c) :
    Halts fun n => (meaning rules n).parser g c :=
  Halts.of_succ h

/-- A repetition halts if its first iteration does, and the rest of it where that one moved. -/
theorem halts_iterate (hg : Halts fun n => (meaning rules n).parser g c)
    (hrest : ∀ v d, g.ComesTo rules c (.ok (v, d)) → d.position ≠ c.position →
      Halts fun n => Parser.iterate n ((meaning rules n).parser g) d) :
    Halts fun n => Parser.iterate n ((meaning rules n).parser g) c := by
  obtain ⟨x, hx, hne⟩ := hg
  have hsucc : Settles (fun n => (meaning rules (n + 1)).parser g c) x := hx.succ
  cases x with
  | ok r =>
    by_cases hd : r.2.position = c.position
    · -- an idle iteration is the last one under both policies
      refine .of_succ ?_
      cases hp : c.config.idle with
      | fail =>
        exact .congr hsucc (fun n hn => Parser.iterate_succ_idle_fail n hn hd hp)
          (halts_const nofun)
      | stop =>
        exact .congr hsucc (fun n hn => Parser.iterate_succ_idle_stop n hn hd hp)
          (halts_const nofun)
    · obtain ⟨y, hy, hyne⟩ := hrest r.1 r.2 hx hd
      refine ⟨_, settles_iterate_moved hx hd hyne hy, ?_⟩
      cases y with
      | unfinished => exact hyne
      | _ => nofun
  | error e =>
    refine .of_succ ?_
    cases e with
    | failure f =>
      exact .congr hsucc (fun n hn => Parser.iterate_succ_failure n hn) (halts_const nofun)
    | _ =>
      exact .congr hsucc (fun n hn => Parser.iterate_succ_fatal n hn rfl) (halts_const nofun)
  | unfinished => exact absurd rfl hne

/-- The iterations of a repetition halt where the repetition does. -/
theorem halts_iterate_of_many (h : Halts fun n => (meaning rules n).parser (.many g) c) :
    Halts fun n => Parser.iterate n ((meaning rules n).parser g) c := by
  obtain ⟨x, ⟨n, hx⟩, hne⟩ := h
  have hlayer : (Grammar.many g).layer rules n (meaning rules n) c = x := hx (n + 1) (by omega)
  rw [← hlayer] at hne
  -- the grammar has returned, so the repetition in it has, and so have its iterations
  have hmany := (Outcome.returned_of_bind hne).1
  have hiterate := (Outcome.returned_of_bind hmany).1
  exact ⟨_, settles_of_le iterate_mono hiterate, hiterate⟩

end

/-! ## Parsers that call no others -/

/-- The outcome is a success or a failure. -/
def Outcome.Answers {α : Type} (x : Outcome α) : Prop :=
  (∃ a, x = .ok a) ∨ ∃ f, x = .error (.failure f)

theorem Outcome.Answers.returned {α : Type} {x : Outcome α} (h : x.Answers) : x ≠ .unfinished := by
  rcases h with ⟨a, rfl⟩ | ⟨f, rfl⟩ <;> nofun

theorem answers_literal (s : String) (c : Cursor) : (Parser.literal s c).Answers := by
  unfold Parser.literal
  split
  · exact .inl ⟨_, rfl⟩
  · exact .inr ⟨_, rfl⟩

theorem answers_char (keep : Char → Bool) (expected : String) (c : Cursor) :
    (Parser.char keep expected c).Answers := by
  unfold Parser.char
  split
  · split
    · exact .inl ⟨_, rfl⟩
    · exact .inr ⟨_, rfl⟩
  · exact .inr ⟨_, rfl⟩

theorem answers_endOfInput (c : Cursor) : (Parser.endOfInput c).Answers := by
  unfold Parser.endOfInput
  split
  · exact .inl ⟨_, rfl⟩
  · exact .inr ⟨_, rfl⟩

theorem halts_number (c : Cursor) : Halts fun _ => Parser.number c := by
  have hsign : Halts fun _ => Parser.optional (Parser.literal "-") c :=
    halts_optional (halts_const (answers_literal "-" c).returned)
  refine hsign.bind fun r _ => ?_
  have hspan : Halts fun _ => Parser.takeWhile1 isDigit r.2 :=
    (halts_const (x := Parser.takeWhile isDigit r.2) nofun).refuseEmpty List.isEmpty
  have hdigits : Halts fun _ => Parser.alt [Parser.takeWhile1 isDigit] (some "digit") r.2 :=
    halts_alt _ (halts_attempts_singleton hspan)
  refine hdigits.bind fun u _ => ?_
  simp only
  split <;> exact halts_const nofun

end Backtrack
