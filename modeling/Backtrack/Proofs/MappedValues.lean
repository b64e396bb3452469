/-
Mapped values. A mapping changes the values that a parser gives and nothing else, so it decides nothing
about where a repetition ends or which candidate of a choice matches. Main statement: a mapping of what
is repeated, or of each candidate of a choice, may as well be applied to the values of the whole, with
the same outcome in every case and the same calls on the way (`map_moves_out`).

A repetition is followed turn by turn and a choice candidate by candidate; at each of them the mapped
parser ends, goes on or stops the run as the parser itself does.
-/
import Backtrack.Proofs.Calls

namespace Backtrack

variable {α β : Type}

/-- What trying the candidates came to, with the value of a match changed. -/
def Attempts.map (f : α → β) : Attempts α → Attempts β
  | .matched value next => .matched (f value) next
  | .missed failures => .missed failures

/-- What a repetition came to, with its values changed. -/
def Repetition.map (f : α → β) (r : Repetition α) : Repetition β :=
  ⟨r.values.map f, r.cursor, r.failure⟩

namespace Parser

variable {p : Parser α} {ps : List (Parser α)} {c d : Cursor} {a : α}

theorem map_apply (p : Parser α) (f : α → β) (c : Cursor) :
    p.map f c = p c >>= fun r => .ok (f r.1, r.2) := rfl

theorem map_of_ok (f : α → β) (h : p c = .ok (a, d)) : p.map f c = .ok (f a, d) :=
  map_eq_ok_iff.2 ⟨a, h, rfl⟩

/-- A parser that does not return from a cursor does not return there with a mapping either. -/
theorem silencedAt_map (f : α → β) (p : Parser α) (d : Cursor) :
    (p.map f).silencedAt d = (p.silencedAt d).map f := by
  funext c
  rw [map_apply]
  unfold silencedAt
  split <;> rfl

/-! ## Choices -/

/-- Mapped candidates miss alike, and match with the mapped value. -/
theorem attempts_map (f : α → β) (ps : List (Parser α)) (c : Cursor) :
    attempts (ps.map fun p => p.map f) c = attempts ps c >>= fun x => .ok (x.map f) := by
  induction ps with
  | nil => rfl
  | cons p ps ih =>
    rw [List.map_cons]
    cases hp : p c with
    | ok r =>
      rw [attempts_cons_ok (map_of_ok f hp), attempts_cons_ok hp]
      rfl
    | error e =>
      have hmapped : p.map f c = .error e := map_eq_error_iff.2 hp
      cases e with
      -- failures carry no value, and those behind this one are mapped alike
      | failure failure =>
        rw [attempts_cons_failure hmapped, attempts_cons_failure hp, ih]
        rcases attempts ps c with (_ | _) | _ | _ <;> rfl
      | _ =>
        rw [attempts_cons_fatal hmapped rfl, attempts_cons_fatal hp rfl]
        rfl
    | unfinished =>
      rw [attempts_cons_unfinished (map_eq_unfinished_iff.2 hp), attempts_cons_unfinished hp]
      rfl

theorem attempts_map_eq_unfinished_iff (f : α → β) :
    attempts (ps.map fun p => p.map f) c = .unfinished ↔ attempts ps c = .unfinished := by
  rw [attempts_map]
  cases attempts ps c <;> simp

theorem choice_map (f : α → β) (ps : List (Parser α)) (message : Option String) (c : Cursor) :
    choice (ps.map fun p => p.map f) message c = (choice ps message).map (Option.map f) c := by
  rw [map_apply, choice, choice, attempts_map]
  rcases attempts ps c with (_ | failures) | _ | _
  · rfl
  · -- whether a choice fails that missed is a question of how many entries it has
    by_cases h : 1 < entries message failures.length <;> simp [Attempts.map, h]
  · rfl
  · rfl

theorem alt_map (f : α → β) (ps : List (Parser α)) (message : Option String) (c : Cursor) :
    alt (ps.map fun p => p.map f) message c = (alt ps message).map f c := by
  rw [map_apply, alt, alt, attempts_map]
  rcases attempts ps c with (_ | failures) | _ | _
  · rfl
  · by_cases h : 1 < entries message failures.length
    · simp [Attempts.map, h]
    · simp only [Outcome.ok_bind, Attempts.map, if_neg h]
      cases failures <;> rfl
  · rfl
  · rfl

/-- A candidate may be silenced before all of them are mapped, or afterwards. -/
theorem modify_silencedAt_map (f : α → β) (ps : List (Parser α)) (i : Nat) (d : Cursor) :
    (ps.map fun p => p.map f).modify i (silencedAt d) =
      (ps.modify i (silencedAt d)).map fun p => p.map f := by
  refine List.ext_getElem? fun j => ?_
  rw [List.getElem?_modify, List.getElem?_map, List.getElem?_map, List.getElem?_modify]
  by_cases hj : i = j
  · simp [hj, Function.comp_def, silencedAt_map]
  · simp [hj]

/-- The same candidates are asked. -/
theorem asks_map_iff (f : α → β) {k : Nat} :
    Asks (ps.map fun p => p.map f) c k ↔ Asks ps c k := by
  constructor
  · rintro ⟨hreturned, hasked⟩
    refine ⟨fun h => hreturned ((attempts_map_eq_unfinished_iff f).2 h), fun i d => ?_⟩
    rw [← hasked, modify_silencedAt_map, attempts_map_eq_unfinished_iff]
  · rintro ⟨hreturned, hasked⟩
    refine ⟨fun h => hreturned ((attempts_map_eq_unfinished_iff f).1 h), fun i d => ?_⟩
    rw [modify_silencedAt_map, attempts_map_eq_unfinished_iff, hasked]

/-! ## Repetitions -/

/-- The last iteration is the last one with a mapping, too; what it was to give is not kept. -/
theorem Ends.map {x : Outcome (Repetition α)} (h : Ends p c x) (f : α → β) :
    Ends (p.map f) c (x >>= fun r => .ok (r.map f)) := by
  cases h with
  | failed hp => exact .failed (map_eq_error_iff.2 hp)
  | stopped hp hd hi => exact .stopped (map_of_ok f hp) hd hi
  | idle hp hd hi => exact .idle (map_of_ok f hp) hd hi
  | fatal hp he => exact .fatal (map_eq_error_iff.2 hp) he

theorem iterate_map (f : α → β) (p : Parser α) (n : Nat) (c : Cursor) :
    iterate n (p.map f) c = iterate n p c >>= fun r => .ok (r.map f) := by
  induction n generalizing c with
  | zero => rfl
  | succ n ih =>
    rcases iteration_cases p c with hp | ⟨x, hends⟩ | ⟨a, d, hp, hd⟩
    · rw [iterate_succ_unfinished n (map_eq_unfinished_iff.2 hp), iterate_succ_unfinished n hp]
      rfl
    · rw [hends.iterate, (hends.map f).iterate]
    · rw [iterate_succ_moved n (map_of_ok f hp) hd, iterate_succ_moved n hp hd, ih]
      cases iterate n p d <;> rfl

theorem many_map (f : α → β) (p : Parser α) (n : Nat) (c : Cursor) :
    many n (p.map f) c = (many n p).map (List.map f) c := by
  rw [map_apply, many, many, iterate_map]
  cases iterate n p c <;> rfl

theorem many1_map (f : α → β) (p : Parser α) (n : Nat) (c : Cursor) :
    many1 n (p.map f) c = (many1 n p).map (List.map f) c := by
  rw [map_apply, many1, many1, iterate_map]
  rcases iterate n p c with ⟨values, d, failure⟩ | _ | _
  · -- mapping keeps whether there is a value at all
    cases values <;> rfl
  · rfl
  · rfl

/-- The parser is called from the same cursors. -/
theorem calls_map (f : α → β) (p : Parser α) (n : Nat) (c : Cursor) :
    calls n (p.map f) c = calls n p c := by
  induction n generalizing c with
  | zero => rfl
  | succ n ih =>
    rcases iteration_cases p c with hp | ⟨x, hends⟩ | ⟨a, d, hp, hd⟩
    · simp only [calls, map_eq_unfinished_iff.2 hp, hp]
    · rw [hends.calls, (hends.map f).calls]
    · rw [calls_succ_moved n (map_of_ok f hp) hd, calls_succ_moved n hp hd, ih]

/-- It makes no difference whether values are mapped within a repetition or a choice or behind it. -/
theorem map_moves_out (f : α → β) (p : Parser α) (ps : List (Parser α)) (message : Option String)
    (c : Cursor) :
    (∀ n, many n (p.map f) c = (many n p).map (List.map f) c ∧
      many1 n (p.map f) c = (many1 n p).map (List.map f) c ∧
      calls n (p.map f) c = calls n p c) ∧
    alt (ps.map fun p => p.map f) message c = (alt ps message).map f c ∧
    choice (ps.map fun p => p.map f) message c = (choice ps message).map (Option.map f) c ∧
    ∀ k, Asks (ps.map fun p => p.map f) c k ↔ Asks ps c k :=
  ⟨fun n => ⟨many_map f p n c, many1_map f p n c, calls_map f p n c⟩, alt_map f ps message c,
    choice_map f ps message c, fun _ => asks_map_iff f⟩

end Parser

end Backtrack
