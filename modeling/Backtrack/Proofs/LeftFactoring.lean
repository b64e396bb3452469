/-
Left factoring: what all candidates of a choice begin with may be read once, in front of a choice
between the rests. Main statement: the two ways match alike and end the run alike, so that only the
place and the words of a failure tell them apart (`and_alt_factored`).

The factored sequence goes on from where the common part has ended, the other one comes back to its
start for each candidate and reads the common part again, to the same place each time. So a rest fails
in the one exactly if its candidate fails in the other.
-/
import Backtrack.Proofs.NestedChoices

namespace Backtrack

/-! ## Outcomes up to failures -/

/-- Two outcomes that are the same, except that they may be different failures. -/
structure Outcome.SameUpToFailure {α : Type} (x y : Outcome α) : Prop where
  ok_iff : ∀ r, x = .ok r ↔ y = .ok r
  fatal_iff : ∀ e, e.isRecoverable = false → (x = .error e ↔ y = .error e)
  failure_iff : (∃ f, x = .error (.failure f)) ↔ ∃ f, y = .error (.failure f)
  unfinished_iff : x = .unfinished ↔ y = .unfinished

namespace Outcome.SameUpToFailure

variable {α : Type}

theorem refl (x : Outcome α) : SameUpToFailure x x :=
  ⟨fun _ => .rfl, fun _ _ => .rfl, .rfl, .rfl⟩

theorem of_failures (f g : Failure) :
    SameUpToFailure (α := α) (.error (.failure f)) (.error (.failure g)) where
  ok_iff r := by simp
  fatal_iff e he := by
    constructor
    · rintro ⟨⟩
      cases he
    · rintro ⟨⟩
      cases he
  failure_iff := by simp
  unfinished_iff := by simp

end Outcome.SameUpToFailure

namespace Parser

variable {α β : Type} {a : Parser α} {b : Parser β} {bs : List (Parser β)} {c d : Cursor} {v : α}

/-! ## Sequences -/

theorem and_of_ok (ha : a c = .ok (v, d)) (b : Parser β) :
    a.and b c = b d >>= fun r => .ok ((v, r.1), r.2) := by
  rw [Parser.and, ha]
  rfl

theorem and_of_error {e : ParseError} (ha : a c = .error e) (b : Parser β) :
    a.and b c = .error e := by
  rw [Parser.and, ha]
  rfl

theorem and_of_unfinished (ha : a c = .unfinished) (b : Parser β) : a.and b c = .unfinished := by
  rw [Parser.and, ha]
  rfl

/-- Behind a match the sequence fails only if its second part does. -/
theorem and_not_failure (ha : a c = .ok (v, d)) (hb : ∀ f, b d ≠ .error (.failure f)) :
    ∀ f, a.and b c ≠ .error (.failure f) := by
  intro f hf
  rw [and_of_ok ha] at hf
  cases hx : b d with
  | ok r =>
    rw [hx] at hf
    cases hf
  | error e =>
    rw [hx] at hf
    cases hf
    exact hb f hx
  | unfinished =>
    rw [hx] at hf
    cases hf

/-! ## Candidates with a common part -/

theorem AllFail.map_and {fs : List Failure} (ha : a c = .ok (v, d)) (h : AllFail d bs fs) :
    AllFail c (bs.map a.and) fs := by
  refine List.forall₂_map_left_iff.2 (h.imp fun b f hb => ?_)
  rw [and_of_ok ha, hb]
  rfl

/-- Where the common part fails, all candidates fail as it does. -/
theorem allFail_map_and_of_failure {f : Failure} (ha : a c = .error (.failure f))
    (bs : List (Parser β)) : AllFail c (bs.map a.and) (bs.map fun _ => f) := by
  refine List.forall₂_map_left_iff.2 (List.forall₂_map_right_iff.2 (List.forall₂_same.2 ?_))
  intro b _
  exact and_of_error ha b

theorem alt_cons_of_not_failure {p : Parser α} (hp : ∀ f, p c ≠ .error (.failure f))
    (ps : List (Parser α)) (message : Option String) : alt (p :: ps) message c = p c :=
  alt_of_not_failure .nil hp ps message

/-- A common part of the candidates may be read once, in front of the choice. -/
theorem and_alt_factored (a : Parser α) {bs : List (Parser β)} (hbs : bs ≠ [])
    (message message' : Option String) (c : Cursor) :
    (a.and (alt bs message) c).SameUpToFailure (alt (bs.map a.and) message' c) := by
  cases ha : a c with
  | ok r =>
    rw [and_of_ok ha]
    rcases candidates_cases bs r.2 with ⟨fs, hall⟩ | ⟨before, b, after, fs, rfl, hbefore, hb⟩
    · rw [alt_of_allFail hall, alt_of_allFail (hall.map_and ha)]
      exact .of_failures _ _
    · rw [List.map_append, List.map_cons, alt_of_not_failure hbefore hb,
        alt_of_not_failure (hbefore.map_and ha) (and_not_failure ha hb), and_of_ok ha]
      exact .refl _
  | error e =>
    rw [and_of_error ha]
    cases e with
    | failure f =>
      rw [alt_of_allFail (allFail_map_and_of_failure ha bs)]
      exact .of_failures _ _
    | _ =>
      -- the first candidate ends the run, and there is a first one
      obtain ⟨b, bs, rfl⟩ := List.exists_cons_of_ne_nil hbs
      rw [List.map_cons, alt_cons_of_not_failure (by simp [and_of_error ha]), and_of_error ha]
      exact .refl _
  | unfinished =>
    -- nor does a run that does not return get past the first candidate
    obtain ⟨b, bs, rfl⟩ := List.exists_cons_of_ne_nil hbs
    rw [and_of_unfinished ha, List.map_cons,
      alt_cons_of_not_failure (by simp [and_of_unfinished ha]), and_of_unfinished ha]
    exact .refl _

/-- The second word stands behind what both begin with; where neither does, both ways fail. -/
theorem and_alt_factored_words :
    [literal "let", literal "in"] ≠ [] ∧
    alt ([literal "let", literal "in"].map (literal "é ").and) none
        ⟨"é in".toList, 0, ⟨.stop, some 3⟩⟩ =
      .ok (("é ".toList, "in".toList), ⟨"é in".toList, 5, ⟨.stop, some 3⟩⟩) ∧
    ∃ f, (literal "é ").and (alt [literal "let", literal "in"] none)
      ⟨"é or".toList, 0, ⟨.fail, none⟩⟩ = .error (.failure f) := by
  have hwords : [literal "let", literal "in"] ≠ [] := List.cons_ne_nil _ _
  have hin := and_alt_factored (literal "é ") hwords none none ⟨"é in".toList, 0, ⟨.stop, some 3⟩⟩
  have hor := and_alt_factored (literal "é ") hwords none none ⟨"é or".toList, 0, ⟨.fail, none⟩⟩
  exact ⟨hwords, (hin.ok_iff _).1 rfl, hor.failure_iff.2 ⟨_, rfl⟩⟩

end Parser

end Backtrack
