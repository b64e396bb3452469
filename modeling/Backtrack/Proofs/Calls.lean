/-
Which calls a choice and a repetition make of the parsers that they are given. A call is told by
what happens without it: if the parser did not return from that cursor, a run that makes the call
would not return either, and a run that does not make it would come to the same as before.

Main statements: a choice asks its candidates up to the first that does not fail, each from the
cursor of the choice and from no other (`Asks.append`, `Asks.decided`), and a repetition asks its
parser from where it starts and from where each iteration that moved has ended (`mem_calls_iff`),
once in each of its turns (`iterate_returned_iff`).
-/
import Backtrack.Proofs.Settling
import Mathlib.Data.List.Forall2

namespace Backtrack.Parser

variable {α : Type}

/-- The parser, except that it does not return from one cursor. -/
def silencedAt (d : Cursor) (p : Parser α) : Parser α :=
  fun c => if c = d then .unfinished else p c

theorem silencedAt_self (p : Parser α) (d : Cursor) : p.silencedAt d d = .unfinished := if_pos rfl

theorem silencedAt_of_ne {c d : Cursor} (p : Parser α) (h : c ≠ d) : p.silencedAt d c = p c :=
  if_neg h

/-! ## Choices -/

/-- An answer that decides a choice: it is given, and it is no failure. -/
structure Decides (x : Outcome (α × Cursor)) : Prop where
  returned : x ≠ .unfinished
  not_failure : ∀ f, x ≠ .error (.failure f)

theorem decides_ok (r : α × Cursor) : Decides (.ok r) where
  returned h := by cases h
  not_failure _ h := by cases h

theorem decides_fatal {e : ParseError} (he : e.isRecoverable = false) :
    Decides (α := α) (.error e) where
  returned h := by cases h
  not_failure f h := by
    cases h
    cases he

/-- The candidates all fail from a cursor, and these are their failures in order. -/
def AllFail (c : Cursor) (ps : List (Parser α)) (fs : List Failure) : Prop :=
  List.Forall₂ (fun p f => p c = .error (.failure f)) ps fs

theorem AllFail.append {c : Cursor} {ps qs : List (Parser α)} {fs gs : List Failure}
    (h : AllFail c ps fs) (h' : AllFail c qs gs) : AllFail c (ps ++ qs) (fs ++ gs) :=
  List.rel_append h h'

theorem AllFail.exists_of_mem {c : Cursor} {ps : List (Parser α)} {fs : List Failure}
    (h : AllFail c ps fs) {p : Parser α} (hp : p ∈ ps) : ∃ f ∈ fs, p c = .error (.failure f) := by
  induction h with
  | nil => cases hp
  | cons hq _ ih =>
    rcases List.mem_cons.1 hp with rfl | hp
    · exact ⟨_, List.mem_cons_self, hq⟩
    · obtain ⟨f, hf, hpf⟩ := ih hp
      exact ⟨f, List.mem_cons_of_mem _ hf, hpf⟩

section

variable {p : Parser α} {ps qs : List (Parser α)} {fs : List Failure} {c : Cursor} {k : Nat}

/-- Behind candidates that fail a choice goes on as if they were not there. -/
theorem attempts_append (h : AllFail c ps fs) (qs : List (Parser α)) :
    attempts (ps ++ qs) c = attempts qs c >>= fun
      | .matched value next => .ok (.matched value next)
      | .missed failures => .ok (.missed (fs ++ failures)) := by
  induction h with
  | nil =>
    rw [List.nil_append]
    rcases attempts qs c with (_ | _) | _ | _ <;> rfl
  | cons hp _ ih =>
    rw [List.cons_append, attempts_cons_failure hp, ih]
    rcases attempts qs c with (_ | _) | _ | _ <;> rfl

theorem attempts_of_allFail (h : AllFail c ps fs) : attempts ps c = .ok (.missed fs) := by
  have happend := attempts_append h []
  rw [List.append_nil] at happend
  rw [happend, attempts, Outcome.ok_bind]
  simp only [List.append_nil]

/-- The first candidate that does not fail is what a choice comes to, whatever stands behind it. -/
theorem attempts_of_not_failure (hp : ∀ f, p c ≠ .error (.failure f)) (qs : List (Parser α)) :
    attempts (p :: qs) c = p c >>= fun r => .ok (.matched r.1 r.2) := by
  cases hx : p c with
  | ok r => exact attempts_cons_ok hx
  | error e =>
    cases e with
    | failure f => exact absurd hx (hp f)
    | _ => exact attempts_cons_fatal hx rfl
  | unfinished => exact attempts_cons_unfinished hx

/-- All candidates fail, or there is a first one that does not. -/
theorem candidates_cases (ps : List (Parser α)) (c : Cursor) :
    (∃ fs, AllFail c ps fs) ∨ ∃ before p after fs, ps = before ++ p :: after ∧
      AllFail c before fs ∧ ∀ f, p c ≠ .error (.failure f) := by
  induction ps with
  | nil => exact .inl ⟨[], .nil⟩
  | cons p ps ih =>
    by_cases hp : ∃ f, p c = .error (.failure f)
    · obtain ⟨f, hf⟩ := hp
      rcases ih with ⟨fs, hall⟩ | ⟨before, q, after, fs, rfl, hbefore, hq⟩
      · exact .inl ⟨f :: fs, .cons hf hall⟩
      · exact .inr ⟨p :: before, q, after, f :: fs, rfl, .cons hf hbefore, hq⟩
    · exact .inr ⟨[], p, ps, [], rfl, .nil, fun f hf => hp ⟨f, hf⟩⟩

/-- The choice returns, and it makes these calls and no others: of its first candidates, so many
of them, each from the cursor of the choice. -/
structure Asks (ps : List (Parser α)) (c : Cursor) (k : Nat) : Prop where
  returned : attempts ps c ≠ .unfinished
  silenced : ∀ i d, attempts (ps.modify i (silencedAt d)) c = .unfinished ↔ i < k ∧ d = c

theorem Asks.nil (c : Cursor) : Asks ([] : List (Parser α)) c 0 where
  returned := by
    intro h
    cases h
  silenced i d := by
    rw [List.modify_nil, attempts]
    constructor
    · intro h
      cases h
    · rintro ⟨h, -⟩
      omega

/-- The first candidate is called from the cursor of the choice, and from no other one. -/
theorem attempts_silenced_iff {d : Cursor} (h : attempts (p :: ps) c ≠ .unfinished) :
    attempts (p.silencedAt d :: ps) c = .unfinished ↔ d = c := by
  by_cases hd : d = c
  · subst hd
    exact iff_of_true (attempts_cons_unfinished (silencedAt_self p d)) rfl
  · have hsame : attempts (p.silencedAt d :: ps) c = attempts (p :: ps) c := by
      rw [attempts, silencedAt_of_ne p (Ne.symm hd), attempts]
    rw [hsame]
    exact iff_of_false h hd

theorem Asks.decided (hp : Decides (p c)) (qs : List (Parser α)) : Asks (p :: qs) c 1 := by
  -- the candidates behind a decision do not matter
  have hreturned : ∀ qs, attempts (p :: qs) c ≠ .unfinished := by
    intro qs
    rw [attempts_of_not_failure hp.not_failure]
    refine Outcome.returned_bind hp.returned fun r hr => ?_
    cases hr
  refine ⟨hreturned qs, fun i d => ?_⟩
  cases i with
  | zero =>
    rw [List.modify_zero_cons, attempts_silenced_iff (hreturned qs)]
    simp only [Nat.lt_add_one, true_and]
  | succ i =>
    rw [List.modify_succ_cons]
    constructor
    · intro h
      exact absurd h (hreturned _)
    · rintro ⟨h, -⟩
      omega

/-- A candidate that fails is asked, and then those behind it. -/
theorem Asks.cons {f : Failure} (hp : p c = .error (.failure f)) (h : Asks ps c k) :
    Asks (p :: ps) c (k + 1) := by
  -- a failure in front is added to those behind it, and changes nothing else
  have hiff : ∀ qs, attempts (p :: qs) c = .unfinished ↔ attempts qs c = .unfinished := by
    intro qs
    rw [attempts_cons_failure hp]
    rcases attempts qs c with (_ | _) | _ | _ <;> simp
  have hreturned : attempts (p :: ps) c ≠ .unfinished := fun hu => h.returned ((hiff ps).1 hu)
  refine ⟨hreturned, fun i d => ?_⟩
  cases i with
  | zero =>
    rw [List.modify_zero_cons, attempts_silenced_iff hreturned]
    simp only [Nat.zero_lt_succ, true_and]
  | succ i =>
    rw [List.modify_succ_cons, hiff, h.silenced]
    simp only [Nat.add_lt_add_iff_right]

theorem Asks.append (h : AllFail c ps fs) (hqs : Asks qs c k) :
    Asks (ps ++ qs) c (ps.length + k) := by
  induction h with
  | nil =>
    rw [List.nil_append, List.length_nil, Nat.zero_add]
    exact hqs
  | cons hp _ ih =>
    rw [List.cons_append, List.length_cons, Nat.add_right_comm]
    exact .cons hp ih

/-- Where all candidates fail, all of them are asked. -/
theorem Asks.of_allFail (h : AllFail c ps fs) : Asks ps c ps.length := by
  have hasks := Asks.append h (.nil c)
  rw [List.append_nil] at hasks
  exact hasks

end

/-! ## Repetitions -/

/-- A repetition has its last iteration at a cursor, and this is what it comes to from there: the
parser fails, or it succeeds without moving, or it ends the run. -/
inductive Ends (p : Parser α) (c : Cursor) : Outcome (Repetition α) → Prop where
  | failed {f : Failure} : p c = .error (.failure f) → Ends p c (.ok ⟨[], c, some f⟩)
  | stopped {a : α} {d : Cursor} : p c = .ok (a, d) → d.position = c.position →
      c.config.idle = .stop → Ends p c (.ok ⟨[], c, none⟩)
  | idle {a : α} {d : Cursor} : p c = .ok (a, d) → d.position = c.position →
      c.config.idle = .fail → Ends p c (.error (.noProgress c.position))
  | fatal {e : ParseError} : p c = .error e → e.isRecoverable = false → Ends p c (.error e)

/-- The cursors from which a repetition calls its parser, in order. -/
def calls : Nat → Parser α → Cursor → List Cursor
  | 0, _, _ => []
  | budget + 1, p, c => c ::
    match p c with
    | .ok (_, next) => if next.position = c.position then [] else calls budget p next
    | _ => []

section

variable {p q : Parser α} {c d : Cursor} {a : α} {x : Outcome (Repetition α)}

theorem Ends.iterate (h : Ends p c x) (n : Nat) : iterate (n + 1) p c = x := by
  cases h with
  | failed hp => exact iterate_succ_failure n hp
  | stopped hp hd hi => exact iterate_succ_idle_stop n hp hd hi
  | idle hp hd hi => exact iterate_succ_idle_fail n hp hd hi
  | fatal hp he => exact iterate_succ_fatal n hp he

theorem Ends.returned (h : Ends p c x) : x ≠ .unfinished := by
  intro hx
  cases h <;> cases hx

/-- How a repetition ends depends on one answer of the parser. -/
theorem Ends.congr (h : Ends p c x) (hq : q c = p c) : Ends q c x := by
  cases h with
  | failed hp => exact .failed (hq.trans hp)
  | stopped hp hd hi => exact .stopped (hq.trans hp) hd hi
  | idle hp hd hi => exact .idle (hq.trans hp) hd hi
  | fatal hp he => exact .fatal (hq.trans hp) he

/-- What an iteration can do: not return, be the last one, or move. -/
theorem iteration_cases (p : Parser α) (c : Cursor) :
    p c = .unfinished ∨ (∃ x, Ends p c x) ∨ ∃ a d, p c = .ok (a, d) ∧ d.position ≠ c.position := by
  cases hp : p c with
  | ok r =>
    by_cases hr : r.2.position = c.position
    · refine .inr (.inl ?_)
      cases hi : c.config.idle with
      | fail => exact ⟨_, .idle hp hr hi⟩
      | stop => exact ⟨_, .stopped hp hr hi⟩
    · exact .inr (.inr ⟨r.1, r.2, rfl, hr⟩)
  | error e =>
    refine .inr (.inl ?_)
    cases e with
    | failure f => exact ⟨_, .failed hp⟩
    | _ => exact ⟨_, .fatal hp rfl⟩
  | unfinished => exact .inl rfl

theorem Ends.calls (h : Ends p c x) (n : Nat) : calls (n + 1) p c = [c] := by
  cases h with
  | failed hp => rw [Parser.calls, hp]
  | stopped hp hd _ | idle hp hd _ => simp only [Parser.calls, hp, hd, if_true]
  | fatal hp _ => rw [Parser.calls, hp]

theorem calls_succ_moved (n : Nat) (hp : p c = .ok (a, d)) (hd : d.position ≠ c.position) :
    calls (n + 1) p c = c :: calls n p d := by
  rw [calls, hp]
  simp only [if_neg hd]

/-- A repetition that returns makes the calls of this list and no others. -/
theorem mem_calls_iff (e : Cursor) : ∀ {n : Nat} {c : Cursor}, iterate n p c ≠ .unfinished →
    (e ∈ calls n p c ↔ iterate n (p.silencedAt e) c = .unfinished)
  | 0, _, h => absurd rfl h
  | n + 1, c, h => by
    by_cases hc : c = e
    · subst hc
      rw [iterate_succ_unfinished n (silencedAt_self p c), calls]
      simp only [List.mem_cons, true_or]
    · -- from here the silent parser does what the other one does
      have hsame := silencedAt_of_ne p hc
      rcases iteration_cases p c with hp | ⟨x, hends⟩ | ⟨a, d, hp, hd⟩
      · exact absurd (iterate_succ_unfinished n hp) h
      · rw [hends.calls, (hends.congr hsame).iterate, List.mem_singleton]
        constructor
        · intro he
          exact absurd he.symm hc
        · intro hx
          exact absurd hx hends.returned
      · rw [iterate_succ_moved n hp hd] at h
        have hrest := (Outcome.returned_of_bind h).1
        rw [calls_succ_moved n hp hd, iterate_succ_moved n (hsame.trans hp) hd, List.mem_cons,
          mem_calls_iff e hrest]
        -- the first call is not the silenced one, so it is one of the others
        rcases iterate n (p.silencedAt e) d with _ | _ | _ <;> simp [Ne.symm hc]

/-- A repetition that returns takes a turn for each call: it returns within as many turns, and within
no fewer. -/
theorem iterate_returned_iff : ∀ {n : Nat} {c : Cursor}, iterate n p c ≠ .unfinished → ∀ k,
    (iterate k p c ≠ .unfinished ↔ (calls n p c).length ≤ k)
  | 0, _, h, _ => absurd rfl h
  | n + 1, c, h, 0 => by
    rw [calls, List.length_cons]
    constructor
    · intro hzero
      exact absurd rfl hzero
    · intro hlength
      omega
  | n + 1, c, h, k + 1 => by
    rcases iteration_cases p c with hp | ⟨x, hends⟩ | ⟨a, d, hp, hd⟩
    · exact absurd (iterate_succ_unfinished n hp) h
    · rw [hends.calls, hends.iterate, List.length_singleton]
      exact iff_of_true hends.returned (Nat.le_add_left 1 k)
    · rw [iterate_succ_moved n hp hd] at h
      have hrest := iterate_returned_iff (Outcome.returned_of_bind h).1 k
      rw [calls_succ_moved n hp hd, iterate_succ_moved k hp hd, List.length_cons,
        Nat.succ_le_succ_iff, ← hrest]
      rcases iterate k p d with _ | _ | _ <;> simp

end

end Backtrack.Parser
