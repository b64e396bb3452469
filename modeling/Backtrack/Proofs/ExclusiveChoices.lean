/-
The order of the candidates of a choice. Where no candidate ends the run and no two of them match,
the order does not matter. Main statement: two orders of the same candidates find the same match; if
there is none, they miss alike, with the words of the candidates in the one order and in the other
(`choice_reordered`).

Each candidate is asked from the cursor of the choice, so what it answers does not depend on those in
front of it. Only a candidate that does not return makes a difference: the match may stand in front
of it or behind.
-/
import Backtrack.Proofs.NestedChoices
import Mathlib.Data.List.Perm.Basic

namespace Backtrack.Parser

variable {α : Type}

/-- From the cursor no candidate ends the run, and of no two candidates both match. -/
structure Exclusive (ps : List (Parser α)) (c : Cursor) : Prop where
  recoverable : ∀ p ∈ ps, ∀ e, p c = .error e → e.isRecoverable = true
  atMostOne : ps.Pairwise fun p q => ∀ r s, p c = .ok r → q c ≠ .ok s

/-- What a choice comes to in two orders of its candidates: a match, or the failure of a lone
candidate or of none, or two failures that tell what the candidates expected in their order. -/
inductive Reordered (ps qs : List (Parser α)) (message : Option String) (c : Cursor) {β : Type} :
    Outcome β → Outcome β → Prop where
  | same (r : β) : Reordered ps qs message c (.ok r) (.ok r)
  | lone (f : Failure) : ps.length ≤ 1 →
      Reordered ps qs message c (.error (.failure f)) (.error (.failure f))
  | missed (f : Failure) {fs gs : List Failure} {text text' : String} :
      AllFail c ps fs → AllFail c qs gs → fs.Perm gs →
      Wording (said fs) message text → Wording (said gs) message text' →
      Reordered ps qs message c (.error (.failure { f with expected := text }))
        (.error (.failure { f with expected := text' }))

section

variable {ps qs : List (Parser α)} {c : Cursor}

/-! ## Exclusive candidates -/

theorem AllFail.ne_ok {fs : List Failure} (h : AllFail c ps fs) {q : Parser α} (hq : q ∈ ps)
    (r : α × Cursor) : q c ≠ .ok r := by
  obtain ⟨f, -, hf⟩ := h.exists_of_mem hq
  simp [hf]

theorem AllFail.recoverable {fs : List Failure} (h : AllFail c ps fs) {q : Parser α} (hq : q ∈ ps)
    {e : ParseError} (he : q c = .error e) : e.isRecoverable = true := by
  obtain ⟨f, -, hf⟩ := h.exists_of_mem hq
  rw [he] at hf
  cases hf
  rfl

/-- Candidates exclude each other where all of them but one fail. -/
theorem Exclusive.of_allFail {p : Parser α} {fs gs : List Failure} (hps : AllFail c ps fs)
    (hqs : AllFail c qs gs) (hp : ∀ e, p c = .error e → e.isRecoverable = true) :
    Exclusive (ps ++ p :: qs) c := by
  constructor
  · intro q hq e he
    rw [List.mem_append, List.mem_cons] at hq
    rcases hq with hq | rfl | hq
    · exact hps.recoverable hq he
    · exact hp e he
    · exact hqs.recoverable hq he
  · -- of any two candidates one is among those that fail
    rw [List.pairwise_append, List.pairwise_cons]
    refine ⟨List.pairwise_of_forall_mem_list ?_, ⟨?_, List.pairwise_of_forall_mem_list ?_⟩, ?_⟩
    · exact fun q hq _ _ r _ hr => absurd hr (hps.ne_ok hq r)
    · exact fun q hq _ s _ => hqs.ne_ok hq s
    · exact fun q hq _ _ r _ hr => absurd hr (hqs.ne_ok hq r)
    · exact fun q hq _ _ r _ hr => absurd hr (hps.ne_ok hq r)

/-- Where two candidates match, they are the same one. -/
theorem Exclusive.eq_of_ok (h : Exclusive ps c) {p q : Parser α} (hp : p ∈ ps) (hq : q ∈ ps)
    {r s : α × Cursor} (hr : p c = .ok r) (hs : q c = .ok s) : r = s := by
  have hsame : ∀ p ∈ ps, ∀ r s, p c = .ok r → p c = .ok s → r = s := by
    intro p _ r s hr hs
    rw [hr] at hs
    cases hs
    rfl
  -- either of the two may stand first in the list
  have hboth : ps.Pairwise fun p q => ∀ r s, p c = .ok r → q c = .ok s → r = s :=
    h.atMostOne.imp fun hpq r s hr hs => absurd hs (hpq r s hr)
  have hflip : ps.Pairwise fun p q => ∀ r s, q c = .ok r → p c = .ok s → r = s :=
    h.atMostOne.imp fun hpq r s hr hs => absurd hr (hpq s r hs)
  exact hboth.forall_of_forall_of_flip hsame hflip hp hq r s hr hs

/-- A candidate that does not fail matches, unless it does not return. -/
theorem Exclusive.ok_or_unfinished (h : Exclusive ps c) {p : Parser α} (hp : p ∈ ps)
    (hnot : ∀ f, p c ≠ .error (.failure f)) : (∃ r, p c = .ok r) ∨ p c = .unfinished := by
  cases hx : p c with
  | ok r => exact .inl ⟨r, rfl⟩
  | error e =>
    have he := h.recoverable p hp e hx
    cases e with
    | failure f => exact absurd hx (hnot f)
    | _ => cases he
  | unfinished => exact .inr rfl

/-! ## Two orders of the candidates -/

theorem AllFail.perm {fs : List Failure} (h : AllFail c ps fs) (hperm : ps.Perm qs) :
    ∃ gs, AllFail c qs gs ∧ fs.Perm gs := by
  obtain ⟨gs, hqs, hgs⟩ := List.perm_comp_forall₂ hperm.symm h
  exact ⟨gs, hqs, hgs.symm⟩

/-- All candidates fail, or what a choice comes to is the answer of one that does not. -/
theorem attempts_cases (ps : List (Parser α)) (c : Cursor) :
    (∃ fs, AllFail c ps fs) ∨ ∃ p ∈ ps, (∀ f, p c ≠ .error (.failure f)) ∧
      attempts ps c = p c >>= fun r => .ok (.matched r.1 r.2) := by
  rcases candidates_cases ps c with hall | ⟨before, p, after, fs, rfl, hbefore, hp⟩
  · exact .inl hall
  · refine .inr ⟨p, List.mem_append_right _ List.mem_cons_self, hp, ?_⟩
    rw [attempts_append hbefore, attempts_of_not_failure hp]
    cases p c <;> rfl

/-- All candidates fail in both orders, or both orders come to the same match, or one of them does
not return. -/
theorem Exclusive.attempts_perm (h : Exclusive ps c) (hperm : ps.Perm qs) :
    (∃ fs gs, AllFail c ps fs ∧ AllFail c qs gs ∧ fs.Perm gs) ∨
      (∃ r : α × Cursor, attempts ps c = .ok (.matched r.1 r.2) ∧
        attempts qs c = .ok (.matched r.1 r.2)) ∨
      attempts ps c = .unfinished ∨ attempts qs c = .unfinished := by
  rcases attempts_cases ps c with ⟨fs, hps⟩ | ⟨p, hp, hpnot, hattempts⟩
  · obtain ⟨gs, hqs, hgs⟩ := hps.perm hperm
    exact .inl ⟨fs, gs, hps, hqs, hgs⟩
  · rcases attempts_cases qs c with ⟨gs, hqs⟩ | ⟨q, hq, hqnot, hattempts'⟩
    · -- the candidate that decides in one order does not fail in the other
      obtain ⟨f, -, hf⟩ := hqs.exists_of_mem (hperm.mem_iff.1 hp)
      exact absurd hf (hpnot f)
    · have hq' : q ∈ ps := hperm.mem_iff.2 hq
      rcases h.ok_or_unfinished hp hpnot with ⟨r, hr⟩ | hr
      · rcases h.ok_or_unfinished hq' hqnot with ⟨s, hs⟩ | hs
        · obtain rfl := h.eq_of_ok hp hq' hr hs
          rw [hr] at hattempts
          rw [hs] at hattempts'
          exact .inr (.inl ⟨r, hattempts, hattempts'⟩)
        · rw [hs] at hattempts'
          exact .inr (.inr (.inr hattempts'))
      · rw [hr] at hattempts
        exact .inr (.inr (.inl hattempts))

/-! ## What the order decides -/

/-- One candidate or none has one order. -/
theorem eq_of_perm_of_length_le_one {ι : Type} {xs ys : List ι} (h : xs.Perm ys)
    (hlength : xs.length ≤ 1) : xs = ys := by
  cases xs with
  | nil => exact h.nil_eq
  | cons x xs =>
    obtain rfl : xs = [] := List.length_eq_zero_iff.1 (Nat.le_zero.1 (Nat.le_of_succ_le_succ hlength))
    exact h.singleton_eq

theorem length_le_one_of_entries {message : Option String} {n : Nat}
    (h : ¬ 1 < entries message n) : n ≤ 1 := by
  unfold entries at h
  omega

/-- The failures of two orders differ in the order of the words at most. -/
theorem reordered_missed (message : Option String) {fs gs : List Failure} (hps : AllFail c ps fs)
    (hqs : AllFail c qs gs) (hperm : fs.Perm gs) {β : Type} :
    Reordered (β := β) ps qs message c (.error (.failure (missed message fs c)))
      (.error (.failure (missed message gs c))) :=
  .missed (missed message fs c) hps hqs hperm (wording_expectation message fs)
    (wording_expectation message gs)

theorem reordered_verdict (message : Option String) {fs gs : List Failure} (hps : AllFail c ps fs)
    (hqs : AllFail c qs gs) (hperm : fs.Perm gs) {β : Type} :
    Reordered (β := β) ps qs message c (.error (.failure (verdict message fs c)))
      (.error (.failure (verdict message gs c))) := by
  by_cases hmany : 1 < entries message fs.length
  · rw [verdict_of_entries hmany, verdict_of_entries (hperm.length_eq ▸ hmany)]
    exact reordered_missed message hps hqs hperm
  · -- a lone failure is passed on as it is, and it is the only order of itself
    have hlength := length_le_one_of_entries hmany
    obtain rfl := eq_of_perm_of_length_le_one hperm hlength
    exact .lone _ (hps.length_eq ▸ hlength)

/-- Two orders find the same match, so it is enough to compare how they miss. -/
theorem Exclusive.reordered (h : Exclusive ps c) (hperm : ps.Perm qs) {message : Option String}
    {β : Type} {x y : Outcome β} {k : Attempts α → Outcome β} (hx : x = attempts ps c >>= k)
    (hy : y = attempts qs c >>= k) (hmatched : ∀ v d, ∃ r, k (.matched v d) = .ok r)
    (hmissed : ∀ fs gs, AllFail c ps fs → AllFail c qs gs → fs.Perm gs →
      Reordered ps qs message c x y)
    (hreturned : x ≠ .unfinished) (hreturned' : y ≠ .unfinished) :
    Reordered ps qs message c x y := by
  rcases h.attempts_perm hperm with ⟨fs, gs, hps, hqs, hgs⟩ | ⟨⟨v, d⟩, hps, hqs⟩ | hps | hqs
  · exact hmissed fs gs hps hqs hgs
  · obtain ⟨r, hr⟩ := hmatched v d
    rw [hx, hy, hps, hqs, Outcome.ok_bind, hr]
    exact .same r
  · -- an order that does not return is compared with nothing
    rw [hx, hps] at hreturned
    exact absurd rfl hreturned
  · rw [hy, hqs] at hreturned'
    exact absurd rfl hreturned'

theorem choice_of_few (message : Option String) {fs : List Failure} (h : AllFail c ps fs)
    (hfew : ¬ 1 < entries message fs.length) : choice ps message c = .ok (none, c) := by
  rw [choice_of_missed message (attempts_of_allFail h), if_neg hfew]

theorem reordered_choice (message : Option String) {fs gs : List Failure} (hps : AllFail c ps fs)
    (hqs : AllFail c qs gs) (hperm : fs.Perm gs) :
    Reordered ps qs message c (choice ps message c) (choice qs message c) := by
  by_cases hmany : 1 < entries message fs.length
  · rw [choice_of_missed message (attempts_of_allFail hps), if_pos hmany,
      choice_of_missed message (attempts_of_allFail hqs), if_pos (hperm.length_eq ▸ hmany)]
    exact reordered_missed message hps hqs hperm
  · rw [choice_of_few message hps hmany, choice_of_few message hqs (hperm.length_eq ▸ hmany)]
    exact .same (none, c)

/-! ## Choices that return -/

theorem attempts_returned (h : ∀ p ∈ ps, p c ≠ .unfinished) : attempts ps c ≠ .unfinished := by
  rcases attempts_cases ps c with ⟨fs, hps⟩ | ⟨p, hp, -, hattempts⟩
  · rw [attempts_of_allFail hps]
    simp
  · rw [hattempts]
    apply Outcome.returned_bind (h p hp)
    simp

theorem alt_returned (message : Option String) (h : ∀ p ∈ ps, p c ≠ .unfinished) :
    alt ps message c ≠ .unfinished := by
  refine Outcome.returned_bind (attempts_returned h) fun r => ?_
  cases r with
  | matched value next => simp
  | missed failures =>
    show (if _ then _ else _) ≠ _
    split
    · simp
    · cases failures <;> simp

theorem choice_returned (message : Option String) (h : ∀ p ∈ ps, p c ≠ .unfinished) :
    choice ps message c ≠ .unfinished := by
  refine Outcome.returned_bind (attempts_returned h) fun r => ?_
  cases r with
  | matched value next => simp
  | missed failures =>
    show (if _ then _ else _) ≠ _
    split <;> simp

end

/-- Where the candidates exclude each other, two orders of them agree: on the match, or on how they
miss. -/
theorem choice_reordered {ps qs : List (Parser α)} {c : Cursor} (hperm : ps.Perm qs)
    (h : Exclusive ps c) (message : Option String) :
    (alt ps message c ≠ .unfinished → alt qs message c ≠ .unfinished →
      Reordered ps qs message c (alt ps message c) (alt qs message c)) ∧
    (choice ps message c ≠ .unfinished → choice qs message c ≠ .unfinished →
      Reordered ps qs message c (choice ps message c) (choice qs message c)) ∧
    ((∀ p ∈ ps, p c ≠ .unfinished) →
      alt ps message c ≠ .unfinished ∧ alt qs message c ≠ .unfinished ∧
        choice ps message c ≠ .unfinished ∧ choice qs message c ≠ .unfinished) ∧
    ∀ fs, AllFail c ps fs → entries message ps.length ≤ 1 →
      choice ps message c = .ok (none, c) ∧ choice qs message c = .ok (none, c) := by
  refine ⟨?_, ?_, fun hreturned => ?_, fun fs hps hfew => ?_⟩
  · refine h.reordered hperm rfl rfl (fun v d => ⟨(v, d), rfl⟩) fun fs gs hps hqs hgs => ?_
    rw [alt_of_allFail hps, alt_of_allFail hqs]
    exact reordered_verdict message hps hqs hgs
  · exact h.reordered hperm rfl rfl (fun v d => ⟨(some v, d), rfl⟩) fun fs gs hps hqs hgs =>
      reordered_choice message hps hqs hgs
  · have hreturned' : ∀ q ∈ qs, q c ≠ .unfinished := fun q hq => hreturned q (hperm.mem_iff.2 hq)
    exact ⟨alt_returned message hreturned, alt_returned message hreturned',
      choice_returned message hreturned, choice_returned message hreturned'⟩
  · obtain ⟨gs, hqs, hgs⟩ := hps.perm hperm
    have hnot : ¬ 1 < entries message fs.length := by
      rw [← hps.length_eq]
      omega
    exact ⟨choice_of_few message hps hnot, choice_of_few message hqs (hgs.length_eq ▸ hnot)⟩

/-- The keywords from the last one to the first: in front of "let" both orders read it, and where all
of them fail, each tells them in its own order. -/
theorem choice_reordered_keywords :
    (keywords.Perm keywords.reverse ∧ Exclusive keywords ⟨"é let".toList, 3, ⟨.fail, some 2⟩⟩ ∧
      Exclusive keywords ⟨"é le".toList, 3, ⟨.fail, some 2⟩⟩) ∧
    Reordered keywords keywords.reverse none ⟨"é let".toList, 3, ⟨.fail, some 2⟩⟩
      (.ok ("let".toList, ⟨"é let".toList, 6, ⟨.fail, some 2⟩⟩))
      (alt keywords.reverse none ⟨"é let".toList, 3, ⟨.fail, some 2⟩⟩) ∧
    Reordered (β := Option Text × Cursor) keywords keywords.reverse none
      ⟨"é le".toList, 3, ⟨.fail, some 2⟩⟩
      (.error (.failure ⟨⟨"é le".toList, 3⟩, "\"x\" or \"let\" or \"in\"", .aggregate, some 2⟩))
      (.error (.failure ⟨⟨"é le".toList, 3⟩, "\"in\" or \"let\" or \"x\"", .aggregate, some 2⟩)) := by
  have hperm : keywords.Perm keywords.reverse := (List.reverse_perm keywords).symm
  have hlet : Exclusive keywords ⟨"é let".toList, 3, ⟨.fail, some 2⟩⟩ := by
    apply Exclusive.of_allFail (p := literal "let") (.cons rfl .nil) (.cons rfl .nil)
    rintro e ⟨⟩
  have hle : Exclusive keywords ⟨"é le".toList, 3, ⟨.fail, some 2⟩⟩ := by
    apply Exclusive.of_allFail (p := literal "let") (.cons rfl .nil) (.cons rfl .nil)
    rintro e ⟨⟩
    rfl
  obtain ⟨halt, -⟩ := choice_reordered hperm hlet none
  obtain ⟨-, hchoice, -⟩ := choice_reordered hperm hle none
  exact ⟨⟨hperm, hlet, hle⟩, halt (by decide) (by decide), hchoice (by decide) (by decide)⟩

end Backtrack.Parser
