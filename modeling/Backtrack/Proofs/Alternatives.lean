/-
What a choice comes to, whatever its candidates are. Main statement: the first candidate that does
not fail decides a choice, each one is asked from the cursor of the choice and none behind the
deciding one is asked at all; if all of them fail, a choice of two entries or more fails in its own
name, with the wording of `Wording`, and of fewer entries `choice` has no value while `alt` fails as
its candidate did (`choice_outcome`).
-/
import Backtrack.Parser.Primitive
import Backtrack.Proofs.Calls

namespace Backtrack.Parser

variable {α : Type}

/-! ## The wording of a choice that missed -/

theorem joinOr_eq_intercalate : ∀ ws : List String, joinOr ws = " or ".intercalate ws
  | [] => String.intercalate_nil.symm
  | [_] => String.intercalate_singleton.symm
  | w :: v :: ws => by
    rw [String.intercalate_cons_cons, ← joinOr_eq_intercalate (v :: ws)]
    rfl

/-- What a choice says that it expected, given what its candidates did and its own message. -/
inductive Wording (es : List String) : Option String → String → Prop where
  | both (m : String) : es ≠ [] →
      Wording es (some m) (m ++ " (missing " ++ " or ".intercalate es ++ ")")
  | candidates : es ≠ [] → Wording es none (" or ".intercalate es)
  | message (m : String) : es = [] → Wording es (some m) m
  | neither : es = [] → Wording es none "something else"

theorem wording_expectation (message : Option String) (fs : List Failure) :
    Wording ((fs.map Failure.expected).filter (· ≠ "")) message (expectation message fs) := by
  unfold expectation
  split
  · next m hes => exact .message m hes
  · next hes => exact .neither hes
  · next m hes =>
    rw [joinOr_eq_intercalate]
    exact .both m hes
  · next hes =>
    rw [joinOr_eq_intercalate]
    exact .candidates hes

/-! ## Outcomes -/

section

variable {p : Parser α} {ps : List (Parser α)} {fs : List Failure} {c : Cursor}

theorem choice_of_decided (h : AllFail c ps fs) (hp : Decides (p c)) (after : List (Parser α))
    (message : Option String) : choice (ps ++ p :: after) message c = p.map some c := by
  rw [choice, attempts_append h, attempts_of_not_failure hp.not_failure, Parser.map]
  cases p c <;> rfl

theorem alt_of_not_failure (h : AllFail c ps fs) (hp : ∀ f, p c ≠ .error (.failure f))
    (after : List (Parser α)) (message : Option String) :
    alt (ps ++ p :: after) message c = p c := by
  rw [alt, attempts_append h, attempts_of_not_failure hp]
  cases p c <;> rfl

theorem alt_of_decided (h : AllFail c ps fs) (hp : Decides (p c)) (after : List (Parser α))
    (message : Option String) : alt (ps ++ p :: after) message c = p c :=
  alt_of_not_failure h hp.not_failure after message

theorem choice_of_missed (message : Option String) (h : attempts ps c = .ok (.missed fs)) :
    choice ps message c = if 1 < entries message fs.length
      then .error (.failure (missed message fs c)) else .ok (none, c) := by
  rw [choice, h]
  rfl

/-- A choice whose candidates all failed does, in its own name or in that of a lone candidate. -/
theorem alt_of_missed (message : Option String) (h : attempts ps c = .ok (.missed fs)) :
    alt ps message c = .error (.failure (if 1 < entries message fs.length then missed message fs c
      else fs.headD (c.failure (message.getD "something else")))) := by
  rw [alt, h]
  show (if _ then _ else _) = _
  split
  · rfl
  · cases fs <;> rfl

end

/-- What a choice comes to, and which candidates it asks. -/
theorem choice_outcome (ps : List (Parser α)) (message : Option String) (c : Cursor) :
    (∀ before p after fs, ps = before ++ p :: after → AllFail c before fs →
      (∀ v d, p c = .ok (v, d) →
        choice ps message c = .ok (some v, d) ∧ alt ps message c = .ok (v, d) ∧
          Asks ps c (before.length + 1)) ∧
      ∀ e, p c = .error e → e.isRecoverable = false →
        choice ps message c = .error e ∧ alt ps message c = .error e ∧
          Asks ps c (before.length + 1)) ∧
    ∀ fs, AllFail c ps fs →
      Asks ps c ps.length ∧
      (2 ≤ entries message ps.length →
        ∃ text, Wording ((fs.map Failure.expected).filter (· ≠ "")) message text ∧
          choice ps message c = .error (.failure
            ⟨⟨c.source, c.position⟩, text, .aggregate, c.config.snippetLimit⟩) ∧
          alt ps message c = .error (.failure
            ⟨⟨c.source, c.position⟩, text, .aggregate, c.config.snippetLimit⟩)) ∧
      (entries message ps.length < 2 →
        choice ps message c = .ok (none, c) ∧
        (∀ p, ps = [p] → alt ps message c = p c) ∧
        (ps = [] → alt ps message c = .error (.failure
          ⟨⟨c.source, c.position⟩, message.getD "something else", .atomic,
            c.config.snippetLimit⟩))) := by
  constructor
  · rintro before p after fs rfl hbefore
    constructor
    · intro v d hp
      have hdecides : Decides (p c) := hp ▸ decides_ok (v, d)
      rw [choice_of_decided hbefore hdecides, alt_of_decided hbefore hdecides, Parser.map, hp]
      exact ⟨rfl, rfl, .append hbefore (.decided hdecides after)⟩
    · intro e hp he
      have hdecides : Decides (p c) := hp ▸ decides_fatal he
      rw [choice_of_decided hbefore hdecides, alt_of_decided hbefore hdecides, Parser.map, hp]
      exact ⟨rfl, rfl, .append hbefore (.decided hdecides after)⟩
  · intro fs hall
    have hmissed := attempts_of_allFail hall
    -- a choice counts its failures, and there is one for each candidate
    have hlength : ps.length = fs.length := hall.length_eq
    refine ⟨.of_allFail hall, fun hentries => ?_, fun hentries => ?_⟩
    · have hmany : 1 < entries message fs.length := by
        rw [← hlength]
        exact hentries
      refine ⟨_, wording_expectation message fs, ?_⟩
      rw [choice_of_missed message hmissed, alt_of_missed message hmissed, if_pos hmany,
        if_pos hmany]
      exact ⟨rfl, rfl⟩
    · have hfew : ¬ 1 < entries message fs.length := by
        rw [← hlength]
        omega
      rw [choice_of_missed message hmissed, alt_of_missed message hmissed, if_neg hfew, if_neg hfew]
      refine ⟨rfl, ?_, ?_⟩
      · rintro p rfl
        cases hall with
        | cons hp hnone =>
          cases hnone
          exact hp.symm
      · rintro rfl
        cases hall
        rfl

/-- A word that may be cut off, and its last letter. -/
def keywords : List (Parser Text) :=
  [((literal "le").and (literal "x")).map fun r => r.1 ++ r.2, literal "let", literal "in"]

/-- The first keyword reads two letters before it fails, the second is read from the start, and the
third is not asked; where all fail, the message goes before the words of the candidates. -/
theorem choice_outcome_keywords :
    (choice keywords (some "keyword") ⟨"é let".toList, 3, ⟨.stop, some 2⟩⟩ =
        .ok (some "let".toList, ⟨"é let".toList, 6, ⟨.stop, some 2⟩⟩) ∧
      Asks keywords ⟨"é let".toList, 3, ⟨.stop, some 2⟩⟩ 2) ∧
    ∃ text, Wording ["\"x\"", "\"let\"", "\"in\""] (some "keyword") text ∧
      alt keywords (some "keyword") ⟨"é le".toList, 3, ⟨.fail, some 2⟩⟩ =
        .error (.failure ⟨⟨"é le".toList, 3⟩, text, .aggregate, some 2⟩) := by
  constructor
  · obtain ⟨hmatched, -⟩ :=
      choice_outcome keywords (some "keyword") ⟨"é let".toList, 3, ⟨.stop, some 2⟩⟩
    have hfirst : AllFail ⟨"é let".toList, 3, ⟨.stop, some 2⟩⟩ (keywords.take 1)
        [⟨⟨"é let".toList, 5⟩, "\"x\"", .atomic, some 2⟩] := .cons rfl .nil
    have hlet := (hmatched _ _ _ _ rfl hfirst).1 _ _ rfl
    exact ⟨hlet.1, hlet.2.2⟩
  · obtain ⟨-, hmissed⟩ :=
      choice_outcome keywords (some "keyword") ⟨"é le".toList, 3, ⟨.fail, some 2⟩⟩
    have hall : AllFail ⟨"é le".toList, 3, ⟨.fail, some 2⟩⟩ keywords
        [⟨⟨"é le".toList, 5⟩, "\"x\"", .atomic, some 2⟩,
          ⟨⟨"é le".toList, 3⟩, "\"let\"", .atomic, some 2⟩,
          ⟨⟨"é le".toList, 3⟩, "\"in\"", .atomic, some 2⟩] :=
      .cons rfl (.cons rfl (.cons rfl .nil))
    obtain ⟨-, hmany, -⟩ := hmissed _ hall
    obtain ⟨text, hwording, -, halt⟩ := hmany (by decide)
    exact ⟨text, hwording, halt⟩

end Backtrack.Parser
