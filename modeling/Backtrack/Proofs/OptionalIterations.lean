/-
Repetitions of an optional match. Such a repetition never ends with a failure: where the parser itself
would fail, the optional match finds nothing and stands still, and the policy for idle iterations
decides. Main statement: under the one policy the repetition is that of the parser, with its values
as those of matches; under the other it never succeeds, but reports where the repetition of the parser
would have ended (`many_optional_by_policy`).

Both repetitions go along the same chain of iterations, so they are compared at its end.
-/
import Backtrack.Proofs.Iterations
import Backtrack.Proofs.Reading

namespace Backtrack.Parser

variable {α β : Type}

/-- Where the parser succeeds, the settings are those of its start. -/
def KeepsConfig (p : Parser α) : Prop := ∀ c a d, p c = .ok (a, d) → d.config = c.config

theorem keepsConfig_literal (s : String) : KeepsConfig (literal s) := by
  intro c a d h
  unfold literal at h
  split at h
  · cases h
    rfl
  · cases h

theorem KeepsConfig.and {p : Parser α} {q : Parser β} (hp : KeepsConfig p) (hq : KeepsConfig q) :
    KeepsConfig (p.and q) := by
  intro c r d h
  obtain ⟨⟨a, e⟩, ha, h⟩ := Outcome.bind_eq_ok_iff.1 h
  obtain ⟨⟨b, d⟩, hb, h⟩ := Outcome.bind_eq_ok_iff.1 h
  cases h
  exact (hq e b d hb).trans (hp c a e ha)

section

variable {p : Parser α} {c d : Cursor} {as : List α} {x : Outcome (List α × Cursor)}

/-! ## The chain -/

theorem Chain.config (h : Chain p c as d) (hp : KeepsConfig p) : d.config = c.config := by
  induction h with
  | nil c => rfl
  | cons hpc _ _ ih => exact ih.trans (hp _ _ _ hpc)

theorem Chain.optional (h : Chain p c as d) : Chain (optional p) c (as.map some) d := by
  induction h with
  | nil c => exact .nil c
  | cons hpc hd _ ih => exact .cons (optional_of_ok hpc) hd ih

/-! ## The end of the chain -/

/-- Where idle iterations end a repetition, one that finds nothing does so like one that fails. -/
theorem Concludes.optional_stop (h : Concludes p d as x) (hi : d.config.idle = .stop) :
    Concludes (optional p) d (as.map some) (x >>= fun r => .ok (r.1.map some, r.2)) := by
  cases h with
  | failed hp => exact .stopped (optional_of_failure hp) rfl hi
  | stopped hp he _ => exact .stopped (optional_of_ok hp) he hi
  | idle hp he hfail =>
    rw [hi] at hfail
    cases hfail
  | fatal hp he => exact .fatal (optional_of_fatal hp he) he

/-- Where idle iterations are an error, one that finds nothing is one too. -/
theorem Concludes.optional_fail (h : Concludes p d as x) (hi : d.config.idle = .fail) :
    Concludes (optional p) d (as.map some) (x >>= fun r => .error (.noProgress r.2.position)) := by
  cases h with
  | failed hp => exact .idle (optional_of_failure hp) rfl hi
  | stopped hp he hstop =>
    rw [hi] at hstop
    cases hstop
  | idle hp he _ => exact .idle (optional_of_ok hp) he hi
  | fatal hp he => exact .fatal (optional_of_fatal hp he) he

/-! ## The repetition -/

/-- What an optional match makes of the end of a chain, it makes of the repetition. -/
theorem many_optional_eq_bind {k : List α × Cursor → Outcome (List (Option α) × Cursor)}
    (hk : ∀ as d x, Chain p c as d → Concludes p d as x →
      Concludes (optional p) d (as.map some) (x >>= k)) (n : Nat) :
    many n (optional p) c = many n p c >>= k := by
  obtain ⟨as, d, m, rfl, hchain, hm⟩ := exists_chain p n c
  -- the chain of the parser is one of its optional form, value for value
  have hoptional : ∀ m, many (as.length + m) (optional p) c =
      iterate m (optional p) d >>= fun r => .ok (as.map some ++ r.values, r.cursor) := by
    intro m
    rw [← List.length_map (f := some), many_of_chain hchain.optional]
  cases m with
  | zero =>
    rw [hoptional, many_of_chain hchain]
    rfl
  | succ m =>
    rcases hm with hm | hp | ⟨r, hends⟩
    · omega
    · rw [hoptional, many_of_chain hchain, iterate_succ_unfinished m hp,
        iterate_succ_unfinished m (optional_of_unfinished hp)]
      rfl
    · -- both chains stop at one cursor, and only their ends differ
      have hend : Concludes p d as (r >>= fun r => .ok (as ++ r.values, r.cursor)) :=
        concludes_iff.2 ⟨r, hends, rfl⟩
      rw [many_of_concludes hchain hend, ← List.length_map (f := some),
        many_of_concludes hchain.optional (hk as d _ hchain hend)]

end

/-- A repetition of an optional match does what the policy for idle iterations says where that of the
parser would end with a failure. -/
theorem many_optional_by_policy {p : Parser α} (hp : KeepsConfig p) (c : Cursor) (n : Nat) :
    (c.config.idle = .stop → many n (optional p) c = (many n p).map (List.map some) c) ∧
    (c.config.idle = .fail →
      (∀ r, many n (optional p) c ≠ .ok r) ∧
      (∀ as e, many n p c = .ok (as, e) →
        many n (optional p) c = .error (.noProgress e.position)) ∧
      (∀ e, many n p c = .error e → many n (optional p) c = .error e) ∧
      (many n p c = .unfinished → many n (optional p) c = .unfinished)) := by
  constructor
  · intro hi
    exact many_optional_eq_bind (fun as d x hchain hend =>
      hend.optional_stop (by rw [hchain.config hp, hi])) n
  · intro hi
    have heq := many_optional_eq_bind (fun as d x hchain hend =>
      hend.optional_fail (by rw [hchain.config hp, hi])) n
    refine ⟨fun r hr => ?_, fun as e he => ?_, fun e he => ?_, fun hu => ?_⟩
    · rw [heq, Outcome.bind_eq_ok_iff] at hr
      obtain ⟨_, -, hr⟩ := hr
      cases hr
    · rw [heq, he]
      rfl
    · rw [heq, he]
      rfl
    · rw [heq, hu]
      rfl

/-- In front of half a pair the repetition ends after the whole ones, or reports that it does not go
on. -/
theorem many_optional_by_policy_pairs :
    KeepsConfig pair ∧
    many 3 (optional pair) ⟨"ababa".toList, 0, ⟨.stop, none⟩⟩ =
      .ok ([some (['a'], ['b']), some (['a'], ['b'])], ⟨"ababa".toList, 4, ⟨.stop, none⟩⟩) ∧
    many 3 (optional pair) ⟨"ababa".toList, 0, ⟨.fail, none⟩⟩ = .error (.noProgress 4) := by
  have hpair : KeepsConfig pair := (keepsConfig_literal "a").and (keepsConfig_literal "b")
  obtain ⟨hstop, -⟩ := many_optional_by_policy hpair ⟨"ababa".toList, 0, ⟨.stop, none⟩⟩ 3
  obtain ⟨-, hfail⟩ := many_optional_by_policy hpair ⟨"ababa".toList, 0, ⟨.fail, none⟩⟩ 3
  exact ⟨hpair, hstop rfl, (hfail rfl).2.1 _ _ rfl⟩

end Backtrack.Parser
