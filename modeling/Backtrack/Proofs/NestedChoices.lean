/-
Choices that are candidates of a choice. Main statement: the candidates of a choice without a
message may as well stand in its place among those of the choice around it, and not even the wording
of the failure tells the difference (`alt_flatten`). The exception are two candidates or more that
all fail without saying what they expected: a choice of their own says that it was something else.
-/
import Backtrack.Proofs.Alternatives

namespace Backtrack.Parser

variable {α : Type}

/-! ## Joined words -/

theorem joinOr_append {ws vs : List String} (hws : ws ≠ []) (hvs : vs ≠ []) :
    joinOr (ws ++ vs) = joinOr ws ++ " or " ++ joinOr vs := by
  simp only [joinOr_eq_intercalate]
  exact String.intercalate_append_of_ne_nil hws hvs

/-- Words that are joined already may be joined with others. -/
theorem joinOr_joinOr_cons {ws : List String} (hws : ws ≠ []) (vs : List String) :
    joinOr (joinOr ws :: vs) = joinOr (ws ++ vs) := by
  cases vs with
  | nil =>
    rw [List.append_nil]
    rfl
  | cons v vs =>
    rw [joinOr_append hws (List.cons_ne_nil v vs)]
    rfl

theorem joinOr_flatten {ws : List String} (hws : ws ≠ []) (us vs : List String) :
    joinOr (us ++ joinOr ws :: vs) = joinOr (us ++ (ws ++ vs)) := by
  by_cases hus : us = []
  · rw [hus, List.nil_append, List.nil_append, joinOr_joinOr_cons hws]
  · have hwvs : ws ++ vs ≠ [] := List.append_ne_nil_of_left_ne_nil hws vs
    rw [joinOr_append hus (List.cons_ne_nil _ _), joinOr_joinOr_cons hws, joinOr_append hus hwvs]

theorem joinOr_ne_empty {ws : List String} (hws : ws ≠ []) (h : ∀ w ∈ ws, w ≠ "") :
    joinOr ws ≠ "" := by
  obtain ⟨w, vs, rfl⟩ := List.exists_cons_of_ne_nil hws
  have hw := h w List.mem_cons_self
  cases vs with
  | nil => exact hw
  | cons v vs =>
    intro hempty
    have hjoin : joinOr (w :: v :: vs) = w ++ " or " ++ joinOr (v :: vs) := rfl
    rw [hjoin, String.append_eq_empty_iff, String.append_eq_empty_iff] at hempty
    exact hw hempty.1.1

/-! ## What a choice says that missed -/

/-- What failures say that was expected, those left out that say nothing. -/
def said (fs : List Failure) : List String := (fs.map Failure.expected).filter (· ≠ "")

theorem said_append (fs gs : List Failure) : said (fs ++ gs) = said fs ++ said gs := by
  unfold said
  rw [List.map_append, List.filter_append]

theorem said_ne_nil {fs : List Failure} (h : ∃ f ∈ fs, f.expected ≠ "") : said fs ≠ [] := by
  obtain ⟨f, hf, he⟩ := h
  refine List.ne_nil_of_mem (a := f.expected) (List.mem_filter.2 ⟨List.mem_map_of_mem hf, ?_⟩)
  exact decide_eq_true he

theorem ne_empty_of_mem_said {fs : List Failure} {w : String} (h : w ∈ said fs) : w ≠ "" :=
  of_decide_eq_true (List.mem_filter.1 h).2

/-- Where something is said, it is the joined words that count. -/
theorem expectation_of_said (message : Option String) {fs : List Failure} (h : said fs ≠ []) :
    expectation message fs = message.elim (joinOr (said fs))
      fun m => m ++ " (missing " ++ joinOr (said fs) ++ ")" := by
  obtain ⟨w, ws, hws⟩ := List.exists_cons_of_ne_nil h
  rw [hws]
  unfold said at hws
  unfold expectation
  rw [hws]
  cases message <;> rfl

/-- The failure of a choice whose candidates all failed: its own, or that of a lone candidate. -/
def verdict (message : Option String) (fs : List Failure) (c : Cursor) : Failure :=
  if 1 < entries message fs.length then missed message fs c
  else fs.headD (c.failure (message.getD "something else"))

theorem alt_of_allFail {ps : List (Parser α)} {fs : List Failure} {c : Cursor}
    (h : AllFail c ps fs) (message : Option String) :
    alt ps message c = .error (.failure (verdict message fs c)) :=
  alt_of_missed message (attempts_of_allFail h)

section

variable {fs gs : List Failure} {c : Cursor}

theorem verdict_of_entries {message : Option String} (h : 1 < entries message fs.length) :
    verdict message fs c = missed message fs c :=
  if_pos h

theorem missed_congr (message : Option String) (hfs : said fs ≠ []) (hgs : said gs ≠ [])
    (h : joinOr (said fs) = joinOr (said gs)) : missed message fs c = missed message gs c := by
  unfold missed
  rw [expectation_of_said message hfs, expectation_of_said message hgs, h]

/-- What the failure of a choice says is what its candidates said, put together. -/
theorem said_missed (h : said gs ≠ []) : said [missed none gs c] = [joinOr (said gs)] := by
  have hexpected : (missed none gs c).expected = joinOr (said gs) := expectation_of_said none h
  have hne : joinOr (said gs) ≠ "" := joinOr_ne_empty h fun _ => ne_empty_of_mem_said
  show List.filter _ [(missed none gs c).expected] = _
  rw [hexpected]
  exact List.filter_cons_of_pos (decide_eq_true hne)

/-- A choice has two entries or more, or it has one candidate only and no message. -/
theorem entries_cases (message : Option String) (fs : List Failure) (g : Failure)
    (hs : List Failure) : 1 < entries message (fs ++ g :: hs).length ∨
      message = none ∧ fs = [] ∧ hs = [] := by
  unfold entries
  rw [List.length_append, List.length_cons]
  cases message with
  | some m =>
    rw [Option.isSome_some, if_pos rfl]
    omega
  | none =>
    -- without a message it is the other failures that make two entries
    rcases Nat.eq_zero_or_pos (fs.length + hs.length) with hnone | hsome
    · have hfs : fs = [] := List.length_eq_zero_iff.1 (by omega)
      have hhs : hs = [] := List.length_eq_zero_iff.1 (by omega)
      exact .inr ⟨rfl, hfs, hhs⟩
    · rw [Option.isSome_none, if_neg Bool.false_ne_true]
      omega

/-- The failure of a choice stands for those of its candidates. -/
theorem verdict_flatten (message : Option String) (fs hs : List Failure) (hne : gs ≠ [])
    (hsaid : 2 ≤ gs.length → said gs ≠ []) :
    verdict message (fs ++ verdict none gs c :: hs) c = verdict message (fs ++ (gs ++ hs)) c := by
  obtain ⟨g, rest, rfl⟩ := List.exists_cons_of_ne_nil hne
  cases rest with
  | nil => rfl
  | cons g' rest =>
    -- two failures or more, so the inner choice says what they said
    have htwo : 2 ≤ (g :: g' :: rest).length := by simp only [List.length_cons]; omega
    have hgs := hsaid htwo
    generalize g :: g' :: rest = gs at htwo hgs
    rw [verdict_of_entries (show 1 < entries none gs.length from htwo)]
    rcases entries_cases message fs (missed none gs c) hs with hentries | ⟨rfl, rfl, rfl⟩
    · have hmore : 1 < entries message (fs ++ (gs ++ hs)).length := by
        unfold entries at hentries ⊢
        simp only [List.length_append, List.length_cons] at hentries ⊢
        omega
      have hnested : said (fs ++ missed none gs c :: hs) =
          said fs ++ joinOr (said gs) :: said hs := by
        rw [said_append, ← List.singleton_append, said_append, said_missed hgs]
        rfl
      rw [verdict_of_entries hentries, verdict_of_entries hmore]
      refine missed_congr message ?_ ?_ ?_
      · rw [hnested]
        exact List.append_ne_nil_of_right_ne_nil _ (List.cons_ne_nil _ _)
      · rw [said_append, said_append]
        exact List.append_ne_nil_of_right_ne_nil _ (List.append_ne_nil_of_left_ne_nil hgs _)
      · rw [hnested, said_append, said_append]
        exact joinOr_flatten hgs _ _
    · -- the choice around it is no more than the choice itself
      rw [List.nil_append, List.nil_append, List.append_nil,
        verdict_of_entries (show 1 < entries none gs.length from htwo)]
      rfl

end

/-! ## Choices in a choice -/

/-- The candidates of a choice without a message may stand in its place, unless there are two of
them or more that all fail and say nothing about what they expected. -/
theorem alt_flatten (xs ys zs : List (Parser α)) (message : Option String) (c : Cursor)
    (hys : ys ≠ [])
    (hsaid : ¬ (2 ≤ ys.length ∧ ∀ p ∈ ys, ∃ f, p c = .error (.failure f) ∧ f.expected = "")) :
    alt (xs ++ [alt ys none] ++ zs) message c = alt (xs ++ ys ++ zs) message c := by
  simp only [List.append_assoc, List.singleton_append]
  rcases candidates_cases xs c with ⟨fs, hxs⟩ | ⟨before, p, after, fs, rfl, hbefore, hp⟩
  · rcases candidates_cases ys c with ⟨gs, hall⟩ | ⟨before, p, after, gs, rfl, hbefore, hp⟩
    · have hnested := alt_of_allFail hall none
      have hlength : ys.length = gs.length := hall.length_eq
      rcases candidates_cases zs c with ⟨hs, hzs⟩ | ⟨before, p, after, hs, rfl, hbefore, hp⟩
      · rw [alt_of_allFail (hxs.append (.cons hnested hzs)),
          alt_of_allFail (hxs.append (hall.append hzs)), verdict_flatten message fs hs]
        · rintro rfl
          exact hys (List.length_eq_zero_iff.1 hlength)
        · intro htwo
          -- had the inner failures said nothing, the condition would exclude them
          refine said_ne_nil (by_contra fun hnone => hsaid ⟨hlength ▸ htwo, fun p hp => ?_⟩)
          obtain ⟨g, hg, hpg⟩ := hall.exists_of_mem hp
          exact ⟨g, hpg, by_contra fun he => hnone ⟨g, hg, he⟩⟩
      · -- what decides stands behind the choice in it
        have h := alt_of_not_failure (hxs.append (.cons hnested hbefore)) hp after message
        have h' := alt_of_not_failure (hxs.append (hall.append hbefore)) hp after message
        simp only [List.append_assoc, List.cons_append] at h h'
        rw [h, h']
    · -- what decides stands in it
      have hnested := alt_of_not_failure hbefore hp after none
      have h := alt_of_not_failure hxs (fun f hf => hp f (hnested ▸ hf)) zs message
      have h' := alt_of_not_failure (hxs.append hbefore) hp (after ++ zs) message
      simp only [List.append_assoc, List.cons_append] at h h' ⊢
      rw [h, h', hnested]
  · -- what decides stands in front of it
    simp only [List.append_assoc, List.cons_append]
    rw [alt_of_not_failure hbefore hp, alt_of_not_failure hbefore hp]

/-- The inner choice joins two words, and the outer one joins them to its own. -/
theorem alt_flatten_words :
    (¬ (2 ≤ [literal "let", literal "in"].length ∧
      ∀ p ∈ [literal "let", literal "in"], ∃ f,
        p ⟨"é 1".toList, 3, ⟨.fail, some 4⟩⟩ = .error (.failure f) ∧ f.expected = "")) ∧
    alt [literal "if", alt [literal "let", literal "in"] none, takeWhile1 (· == 'x')] (some "word")
        ⟨"é 1".toList, 3, ⟨.fail, some 4⟩⟩ =
      .error (.failure ⟨⟨"é 1".toList, 3⟩,
        "word (missing \"if\" or \"let\" or \"in\")", .aggregate, some 4⟩) := by
  have hsaid : ¬ (2 ≤ [literal "let", literal "in"].length ∧
      ∀ p ∈ [literal "let", literal "in"], ∃ f,
        p ⟨"é 1".toList, 3, ⟨.fail, some 4⟩⟩ = .error (.failure f) ∧ f.expected = "") := by
    rintro ⟨-, hall⟩
    obtain ⟨f, hf, he⟩ := hall (literal "let") List.mem_cons_self
    cases hf
    exact absurd he (by decide)
  refine ⟨hsaid, ?_⟩
  exact (alt_flatten [literal "if"] _ [takeWhile1 (· == 'x')] (some "word") _
    (List.cons_ne_nil _ _) hsaid).trans rfl

/-- Of two candidates that say nothing the inner choice says that they expected something else. -/
example : alt [literal "if", alt [fail "", fail ""] none] none (.start []) ≠
    alt [literal "if", fail "", fail ""] none (.start []) := by decide

end Backtrack.Parser
