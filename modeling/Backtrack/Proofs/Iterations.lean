/-
What a repetition comes to, whatever its parser is. It goes along a chain of iterations that each
move, up to a cursor where its parser does not move on, and what the parser does there decides.
Main statements: `many` returns exactly where there is such a chain, and then as its end says
(`many_returns_iff_chain`); `many1` is one match and then `many`, unless the first match does not
move (`many1_eq_and_many`).

A chain that has been gone along can be taken off the budget, so that what is left to look at is the
iteration at its end.
-/
import Backtrack.Parser.Primitive
import Backtrack.Parser.Span
import Backtrack.Proofs.Calls

namespace Backtrack.Parser

variable {α : Type}

/-! ## Chains -/

/-- Iterations that each move, from one cursor to another, with their values in order. -/
inductive Chain (p : Parser α) : Cursor → List α → Cursor → Prop where
  | nil (c : Cursor) : Chain p c [] c
  | cons {c d e : Cursor} {a : α} {as : List α} : p c = .ok (a, d) → d.position ≠ c.position →
      Chain p d as e → Chain p c (a :: as) e

section

variable {p : Parser α} {c d : Cursor} {as : List α}

/-- Along a chain a repetition collects its values, with one call for each. -/
theorem iterate_of_chain (h : Chain p c as d) (m : Nat) :
    iterate (as.length + m) p c =
      iterate m p d >>= fun r => .ok { r with values := as ++ r.values } := by
  induction h with
  | nil c =>
    rw [List.length_nil, Nat.zero_add]
    cases iterate m p c <;> rfl
  | cons hp hd _ ih =>
    rw [List.length_cons, Nat.add_right_comm, iterate_succ_moved _ hp hd, ih]
    cases iterate m p _ <;> rfl

theorem length_calls_of_chain (h : Chain p c as d) (m : Nat) :
    (calls (as.length + m) p c).length = as.length + (calls m p d).length := by
  induction h with
  | nil c => rw [List.length_nil, Nat.zero_add, Nat.zero_add]
  | cons hp hd _ ih =>
    rw [List.length_cons, Nat.add_right_comm, calls_succ_moved _ hp hd, List.length_cons, ih]
    omega

/-- A chain goes on until the budget is used up or the parser does not move on. -/
theorem exists_chain (p : Parser α) : ∀ (n : Nat) (c : Cursor), ∃ as d m,
    n = as.length + m ∧ Chain p c as d ∧ (m = 0 ∨ p d = .unfinished ∨ ∃ x, Ends p d x)
  | 0, c => ⟨[], c, 0, rfl, .nil c, .inl rfl⟩
  | n + 1, c => by
    rcases iteration_cases p c with hp | hends | ⟨a, d, hp, hd⟩
    · exact ⟨[], c, n + 1, (Nat.zero_add _).symm, .nil c, .inr (.inl hp)⟩
    · exact ⟨[], c, n + 1, (Nat.zero_add _).symm, .nil c, .inr (.inr hends)⟩
    · obtain ⟨as, e, m, hn, hchain, hm⟩ := exists_chain p n d
      refine ⟨a :: as, e, m, ?_, .cons hp hd hchain, hm⟩
      rw [List.length_cons, hn]
      omega

end

/-! ## What the end of a chain decides -/

/-- What `many` comes to at the end of a chain that has given these values. The settings are those
of the cursor at the end, and nothing of the last call is kept. -/
inductive Concludes (p : Parser α) (d : Cursor) (as : List α) :
    Outcome (List α × Cursor) → Prop where
  | failed {f : Failure} : p d = .error (.failure f) → Concludes p d as (.ok (as, d))
  | stopped {a : α} {e : Cursor} : p d = .ok (a, e) → e.position = d.position →
      d.config.idle = .stop → Concludes p d as (.ok (as, d))
  | idle {a : α} {e : Cursor} : p d = .ok (a, e) → e.position = d.position →
      d.config.idle = .fail → Concludes p d as (.error (.noProgress d.position))
  | fatal {e : ParseError} : p d = .error e → e.isRecoverable = false →
      Concludes p d as (.error e)

section

variable {p : Parser α} {c d : Cursor} {as : List α} {x : Outcome (List α × Cursor)}

theorem concludes_iff : Concludes p d as x ↔
    ∃ r, Ends p d r ∧ x = r >>= fun r => .ok (as ++ r.values, r.cursor) := by
  constructor
  · intro h
    cases h with
    | failed hp => exact ⟨_, .failed hp, by rw [Outcome.ok_bind, List.append_nil]⟩
    | stopped hp he hi => exact ⟨_, .stopped hp he hi, by rw [Outcome.ok_bind, List.append_nil]⟩
    | idle hp he hi => exact ⟨_, .idle hp he hi, rfl⟩
    | fatal hp he => exact ⟨_, .fatal hp he, rfl⟩
  · rintro ⟨r, h, rfl⟩
    cases h with
    | failed hp =>
      rw [Outcome.ok_bind, List.append_nil]
      exact .failed hp
    | stopped hp he hi =>
      rw [Outcome.ok_bind, List.append_nil]
      exact .stopped hp he hi
    | idle hp he hi => exact .idle hp he hi
    | fatal hp he => exact .fatal hp he

theorem Concludes.returned (h : Concludes p d as x) : x ≠ .unfinished := by
  intro hx
  cases h <;> cases hx

theorem many_of_chain (h : Chain p c as d) (m : Nat) :
    many (as.length + m) p c = iterate m p d >>= fun r => .ok (as ++ r.values, r.cursor) := by
  rw [many, iterate_of_chain h]
  cases iterate m p d <;> rfl

/-- A chain and its end need one call more than the chain has iterations. -/
theorem many_of_concludes (h : Chain p c as d) (hx : Concludes p d as x) (m : Nat) :
    many (as.length + (m + 1)) p c = x := by
  obtain ⟨r, hends, rfl⟩ := concludes_iff.1 hx
  rw [many_of_chain h, hends.iterate]

theorem exists_chain_of_many {n : Nat} (h : many n p c = x) (hx : x ≠ .unfinished) :
    ∃ as d, Chain p c as d ∧ Concludes p d as x := by
  obtain ⟨as, d, m, rfl, hchain, hm⟩ := exists_chain p n c
  rw [many_of_chain hchain] at h
  subst h
  refine ⟨as, d, hchain, ?_⟩
  -- the chain leads to the end of the loop, or it has used up the budget
  cases m with
  | zero => exact absurd rfl hx
  | succ m =>
    rcases hm with hm | hp | ⟨r, hends⟩
    · omega
    · rw [iterate_succ_unfinished m hp] at hx
      exact absurd rfl hx
    · rw [hends.iterate m]
      exact concludes_iff.2 ⟨r, hends, rfl⟩

end

/-- A repetition returns something exactly where a chain leads to an end that says so. -/
theorem many_returns_iff_chain (p : Parser α) (c : Cursor) (x : Outcome (List α × Cursor)) :
    (x ≠ .unfinished ∧ Settles (fun n => many n p c) x) ↔
      ∃ as d, Chain p c as d ∧ Concludes p d as x := by
  constructor
  · rintro ⟨hx, n, hn⟩
    exact exists_chain_of_many (hn n (Nat.le_refl n)) hx
  · rintro ⟨as, d, hchain, hend⟩
    -- one call for each value of the chain and one that ends it
    refine ⟨hend.returned, as.length + 1, fun n hn => ?_⟩
    obtain ⟨m, rfl⟩ : ∃ m, n = as.length + (m + 1) := ⟨n - as.length - 1, by omega⟩
    exact many_of_concludes hchain hend m

/-- Two letters, of which the second may be missing. -/
def pair : Parser (Text × Text) := (literal "a").and (literal "b")

/-- The third pair is cut off, and the repetition stands in front of it. -/
theorem many_returns_iff_chain_pairs :
    Settles (fun n => many n pair ⟨"ababa".toList, 0, ⟨.fail, none⟩⟩)
      (.ok ([(['a'], ['b']), (['a'], ['b'])], ⟨"ababa".toList, 4, ⟨.fail, none⟩⟩)) := by
  have hchain : Chain pair ⟨"ababa".toList, 0, ⟨.fail, none⟩⟩
      [(['a'], ['b']), (['a'], ['b'])] ⟨"ababa".toList, 4, ⟨.fail, none⟩⟩ :=
    .cons rfl (by decide) (.cons rfl (by decide) (.nil _))
  exact ((many_returns_iff_chain _ _ _).2 ⟨_, _, hchain, .failed rfl⟩).2

/-! ## At least one match -/

section

variable {p : Parser α} {c d : Cursor} {a : α}

/-- Where the first match moves, what follows it is `many`. -/
theorem many1_succ_moved (n : Nat) (hp : p c = .ok (a, d)) (hd : d.position ≠ c.position) :
    many1 (n + 1) p c = many n p d >>= fun r => .ok (a :: r.1, r.2) := by
  rw [many1, many, iterate_succ_moved n hp hd]
  cases iterate n p d <;> rfl

theorem many1_succ_failure (n : Nat) {f : Failure} (hp : p c = .error (.failure f)) :
    many1 (n + 1) p c = .error (.failure f) := by
  rw [many1, iterate_succ_failure n hp]
  rfl

theorem many1_succ_fatal (n : Nat) {e : ParseError} (hp : p c = .error e)
    (he : e.isRecoverable = false) : many1 (n + 1) p c = .error e := by
  rw [many1, iterate_succ_fatal n hp he]
  rfl

theorem ne_nil_of_many1 {n : Nat} {as : List α} (h : many1 n p c = .ok (as, d)) : as ≠ [] := by
  obtain ⟨r, -, h⟩ := Outcome.bind_eq_ok_iff.1 h
  split at h
  · cases h
  · next hr =>
    cases h
    intro hnil
    rw [hnil] at hr
    exact hr rfl

/-- Where `many` has found anything, `many1` finds the same. -/
theorem many1_of_many {n : Nat} {as : List α} (h : many n p c = .ok (as, d)) (hne : as ≠ []) :
    many1 n p c = .ok (as, d) := by
  obtain ⟨r, hr, h⟩ := Outcome.bind_eq_ok_iff.1 h
  cases h
  rw [many1, hr, Outcome.ok_bind, if_neg (by rwa [List.isEmpty_iff])]
  rfl

end

/-- At least one match is a match and any number of others, unless the first one does not move;
that one counts as none. -/
theorem many1_eq_and_many (p : Parser α) (c : Cursor) :
    ((∀ a d, p c = .ok (a, d) → d.position ≠ c.position) →
      ∀ n, many1 (n + 1) p c = (p.and (many n p)).map (fun r => r.1 :: r.2) c) ∧
    (∀ f, p c = .error (.failure f) → ∀ n, many1 (n + 1) p c = .error (.failure f)) ∧
    (∀ a d, p c = .ok (a, d) → d.position = c.position → ∀ n,
      (c.config.idle = .fail → many1 (n + 1) p c = .error (.noProgress c.position)) ∧
      (c.config.idle = .stop → many1 (n + 1) p c = .error (.failure
        ⟨⟨c.source, c.position⟩, "", .atomic, c.config.snippetLimit⟩))) ∧
    ∀ n as d, many1 n p c = .ok (as, d) → as ≠ [] := by
  refine ⟨fun hmoves n => ?_, fun f hp n => many1_succ_failure n hp, fun a d hp hd n => ⟨?_, ?_⟩,
    fun n as d => ne_nil_of_many1⟩
  · cases hp : p c with
    | ok r =>
      rw [many1_succ_moved n hp (hmoves r.1 r.2 hp)]
      simp only [Parser.map, Parser.and, hp, Outcome.ok_bind]
      cases many n p r.2 <;> rfl
    | error e =>
      have hand : (p.and (many n p)).map (fun r => r.1 :: r.2) c = .error e := by
        simp only [Parser.map, Parser.and, hp, Outcome.error_bind]
      rw [hand]
      cases e with
      | failure f => exact many1_succ_failure n hp
      | _ => exact many1_succ_fatal n hp rfl
    | unfinished =>
      rw [many1, iterate_succ_unfinished n hp]
      simp only [Parser.map, Parser.and, hp, Outcome.unfinished_bind]
  · intro hi
    rw [many1, iterate_succ_idle_fail n hp hd hi]
    rfl
  · intro hi
    rw [many1, iterate_succ_idle_stop n hp hd hi]
    rfl

/-- In front of a pair both sides read it; where a span is empty, the policy decides. -/
theorem many1_eq_and_many_pairs :
    many1 3 pair ⟨"aba".toList, 0, ⟨.fail, some 1⟩⟩ =
        (pair.and (many 2 pair)).map (fun r => r.1 :: r.2) ⟨"aba".toList, 0, ⟨.fail, some 1⟩⟩ ∧
      many1 3 (takeWhile (· == 'b')) ⟨"aba".toList, 2, ⟨.fail, some 1⟩⟩ = .error (.noProgress 2) ∧
      many1 3 (takeWhile (· == 'b')) ⟨"aba".toList, 2, ⟨.stop, some 1⟩⟩ =
        .error (.failure ⟨⟨"aba".toList, 2⟩, "", .atomic, some 1⟩) := by
  have hmoves : ∀ a d, pair ⟨"aba".toList, 0, ⟨.fail, some 1⟩⟩ = .ok (a, d) → d.position ≠ 0 := by
    intro a d h
    cases h
    decide
  obtain ⟨hpair, -⟩ := many1_eq_and_many pair ⟨"aba".toList, 0, ⟨.fail, some 1⟩⟩
  obtain ⟨-, -, hidle, -⟩ :=
    many1_eq_and_many (takeWhile (· == 'b')) ⟨"aba".toList, 2, ⟨.fail, some 1⟩⟩
  obtain ⟨-, -, hstop, -⟩ :=
    many1_eq_and_many (takeWhile (· == 'b')) ⟨"aba".toList, 2, ⟨.stop, some 1⟩⟩
  exact ⟨hpair hmoves 2, (hidle _ _ rfl rfl 2).1 rfl, (hstop _ _ rfl rfl 2).2 rfl⟩

end Backtrack.Parser
