/-
The longest front of a text whose characters all belong to a class. Main statements: the parsers of
spans, which search for the byte where it ends, read exactly this front, whatever the class is, and
those that refuse the empty span fail exactly where the front is empty (`spans_longest`); a parser of
one character that is repeated comes to the same, although it tests and passes the characters one at
a time (`many_char_eq_takeWhile`).

The characters of the class form a chain of iterations, and the chain ends where the class does.
-/
import Backtrack.Proofs.Iterations
import Backtrack.Proofs.Reading

namespace Backtrack

namespace Parser

variable {keep stop : Char → Bool} {c d : Cursor} {span rest t : Text} {expected : String}

/-! ## Spans -/

theorem takeWhile_of_longestFront (h : Text.LongestFront keep c.remaining span rest) :
    takeWhile keep c = .ok (span, c.past span) := by
  rw [takeWhile, scan_of_longestFront h]
  rfl

theorem takeTill_eq_takeWhile (h : ∀ ch, stop ch = !keep ch) : takeTill stop = takeWhile keep := by
  have hkeep : (fun ch => !stop ch) = keep := by
    funext ch
    rw [h, Bool.not_not]
  unfold takeTill takeWhile
  rw [hkeep]

theorem nonEmpty_of_ok {p : Parser Text} (h : p c = .ok (span, d)) :
    nonEmpty p c = if span = [] then .error (c.fail "") else .ok (span, d) := by
  unfold nonEmpty refuseEmpty
  rw [h]
  cases span <;> rfl

/-- The parsers of spans read the longest front of what remains. The text can be cut where the search
for the first character outside the class comes to, and both what is captured and the step forward
end there. -/
theorem spans_longest (keep : Char → Bool) {c : Cursor} (hc : c.IsValid) :
    ∃ span rest d,
      Text.LongestFront keep c.remaining span rest ∧
      (∀ s r, Text.LongestFront keep c.remaining s r → s = span ∧ r = rest) ∧
      c.remaining.before? (c.remaining.spanEnd keep) = some span ∧
      c.remaining.spanEnd keep = span.size ∧
      d = ⟨c.source, c.position + span.size, c.config⟩ ∧ d.remaining = rest ∧
      takeWhile keep c = .ok (span, d) ∧
      takeWhile1 keep c = (if span = [] then
          .error (.failure ⟨⟨c.source, c.position⟩, "", .atomic, c.config.snippetLimit⟩)
        else .ok (span, d)) ∧
      ∀ stop, (∀ ch, stop ch = !keep ch) →
        takeTill stop c = takeWhile keep c ∧ takeTill1 stop c = takeWhile1 keep c := by
  have hfront := Text.LongestFront.of_takeWhile keep c.remaining
  have hspan := takeWhile_of_longestFront hfront
  have hbefore : c.Before (c.remaining.takeWhile keep ++ c.remaining.dropWhile keep) :=
    ⟨hc, hfront.text⟩
  refine ⟨_, _, _, hfront, fun s r => hfront.unique, hfront.before?_spanEnd, hfront.spanEnd_eq, rfl,
    hbefore.past.remaining, hspan, nonEmpty_of_ok hspan, fun stop hstop => ?_⟩
  unfold takeTill1 takeWhile1
  rw [takeTill_eq_takeWhile hstop]
  exact ⟨rfl, rfl⟩

/-- A span of two characters with four bytes, in front of a blank. -/
theorem spans_longest_accents :
    Cursor.IsValid ⟨"aéé b".toList, 1, ⟨.stop, some 3⟩⟩ ∧
    takeTill1 (· != 'é') ⟨"aéé b".toList, 1, ⟨.stop, some 3⟩⟩ =
      .ok ("éé".toList, ⟨"aéé b".toList, 5, ⟨.stop, some 3⟩⟩) ∧
    Cursor.IsValid ⟨"aéé b".toList, 5, ⟨.stop, some 3⟩⟩ ∧
    takeWhile1 (· == 'é') ⟨"aéé b".toList, 5, ⟨.stop, some 3⟩⟩ =
      .error (.failure ⟨⟨"aéé b".toList, 5⟩, "", .atomic, some 3⟩) := by
  have hbefore : Cursor.IsValid ⟨"aéé b".toList, 1, ⟨.stop, some 3⟩⟩ := by decide
  have hbehind : Cursor.IsValid ⟨"aéé b".toList, 5, ⟨.stop, some 3⟩⟩ := by decide
  refine ⟨hbefore, ?_, hbehind, ?_⟩
  · obtain ⟨span, rest, d, -, hunique, -, -, rfl, -, -, hspan1, htill⟩ :=
      spans_longest (· == 'é') hbefore
    obtain ⟨rfl, rfl⟩ := hunique "éé".toList " b".toList ⟨rfl, List.all_eq_true.1 rfl, rfl⟩
    rw [(htill (· != 'é') fun _ => rfl).2, hspan1]
    rfl
  · obtain ⟨span, rest, d, -, hunique, -, -, rfl, -, -, hspan1, -⟩ :=
      spans_longest (· == 'é') hbehind
    obtain ⟨rfl, rfl⟩ := hunique [] " b".toList ⟨rfl, List.forall_mem_nil _, rfl⟩
    rw [hspan1]
    rfl

/-! ## Character by character -/

theorem char_of_cons {ch : Char} (h : c.remaining = ch :: t) (hch : keep ch = true) :
    char keep expected c = .ok (ch, c.past [ch]) := by
  have hcurrent : c.current = some ch := by
    unfold Cursor.current
    rw [h]
    rfl
  unfold char Cursor.next
  rw [hcurrent]
  exact if_pos hch

theorem char_of_outside (h : c.remaining.opensWith keep = false) :
    char keep expected c = .error (c.fail expected) := by
  unfold char Cursor.current
  cases hr : c.remaining with
  | nil => rfl
  | cons ch t =>
    rw [hr, Text.opensWith_cons] at h
    simp only [List.head?_cons, h, Bool.false_eq_true, if_false]

/-- Over a text of the class a parser of one character takes an iteration for each of them. -/
theorem chain_char : ∀ {t : Text} {c : Cursor}, c.Before (t ++ rest) → (∀ ch ∈ t, keep ch = true) →
    Chain (char keep expected) c t (c.past t)
  | [], c, _, _ => .nil c
  | ch :: t, c, hc, ht => by
    obtain ⟨hch, ht⟩ := List.forall_mem_cons.1 ht
    have hrest := chain_char (hc.past (t := [ch])) ht
    rw [Cursor.past_past] at hrest
    refine .cons (char_of_cons hc.remaining hch) ?_ hrest
    -- every character takes a byte at least, so no iteration is idle
    have hpos := ch.utf8Size_pos
    simp only [Cursor.past, Cursor.advance, Text.size_cons, Text.size_nil]
    omega

theorem many_char_of_longestFront {n : Nat} (hc : c.IsValid)
    (h : Text.LongestFront keep c.remaining span rest) (hn : span.length < n) :
    many n (char keep expected) c = .ok (span, c.past span) := by
  have hbefore : c.Before (span ++ rest) := ⟨hc, h.text⟩
  have hstop : char keep expected (c.past span) = .error ((c.past span).fail expected) :=
    char_of_outside (hbefore.past.remaining ▸ h.outside)
  obtain ⟨m, rfl⟩ : ∃ m, n = span.length + (m + 1) := ⟨n - span.length - 1, by omega⟩
  exact many_of_concludes (chain_char hbefore h.inside) (.failed hstop) m

/-- A repetition of a parser of one character comes to what the parser of spans comes to, whatever
the policy for idle iterations. At least one character is asked for in the same places, where only
the wording of the failure differs. -/
theorem many_char_eq_takeWhile (keep : Char → Bool) (expected : String) {c : Cursor}
    (hc : c.IsValid) :
    (∃ span d, takeWhile keep c = .ok (span, d) ∧
      ∀ n, span.length < n → many n (char keep expected) c = .ok (span, d)) ∧
    ((∃ span d, takeWhile1 keep c = .ok (span, d) ∧
        ∀ n, span.length < n → many1 n (char keep expected) c = .ok (span, d)) ∨
      (takeWhile1 keep c =
          .error (.failure ⟨⟨c.source, c.position⟩, "", .atomic, c.config.snippetLimit⟩) ∧
        ∀ n, 0 < n → many1 n (char keep expected) c = .error (.failure
          ⟨⟨c.source, c.position⟩, expected, .atomic, c.config.snippetLimit⟩))) := by
  have hfront := Text.LongestFront.of_takeWhile keep c.remaining
  have hspan := takeWhile_of_longestFront hfront
  have hmany : ∀ n, _ → many n (char keep expected) c = _ :=
    fun n => many_char_of_longestFront hc hfront
  have hspan1 : takeWhile1 keep c = _ := nonEmpty_of_ok hspan
  refine ⟨⟨_, _, hspan, hmany⟩, ?_⟩
  by_cases hempty : c.remaining.takeWhile keep = []
  · rw [if_pos hempty] at hspan1
    refine .inr ⟨hspan1, fun n hn => ?_⟩
    have hstop : c.remaining.opensWith keep = false := by
      rw [hfront.text, hempty]
      exact hfront.outside
    obtain ⟨m, rfl⟩ : ∃ m, n = m + 1 := ⟨n - 1, by omega⟩
    exact many1_succ_failure m (char_of_outside hstop)
  · rw [if_neg hempty] at hspan1
    exact .inl ⟨_, _, hspan1, fun n hn => many1_of_many (hmany n hn) hempty⟩

/-- Three letters of five bytes are read one by one; where no letter is, one fails to be. -/
theorem many_char_eq_takeWhile_letters :
    Cursor.IsValid ⟨"éaé 1".toList, 0, ⟨.fail, some 2⟩⟩ ∧
    many 4 (char (· != ' ') "letter") ⟨"éaé 1".toList, 0, ⟨.fail, some 2⟩⟩ =
      .ok ("éaé".toList, ⟨"éaé 1".toList, 5, ⟨.fail, some 2⟩⟩) ∧
    Cursor.IsValid ⟨"éaé 1".toList, 5, ⟨.fail, some 2⟩⟩ ∧
    many1 1 (char (· != ' ') "letter") ⟨"éaé 1".toList, 5, ⟨.fail, some 2⟩⟩ =
      .error (.failure ⟨⟨"éaé 1".toList, 5⟩, "letter", .atomic, some 2⟩) := by
  have hbefore : Cursor.IsValid ⟨"éaé 1".toList, 0, ⟨.fail, some 2⟩⟩ := by decide
  have hbehind : Cursor.IsValid ⟨"éaé 1".toList, 5, ⟨.fail, some 2⟩⟩ := by decide
  refine ⟨hbefore, ?_, hbehind, ?_⟩
  · obtain ⟨⟨span, d, hspan, hmany⟩, -⟩ := many_char_eq_takeWhile (· != ' ') "letter" hbefore
    cases hspan
    exact hmany 4 (by decide)
  · obtain ⟨-, ⟨span, d, hspan, -⟩ | ⟨-, hfails⟩⟩ :=
      many_char_eq_takeWhile (· != ' ') "letter" hbehind
    · cases hspan
    · exact hfails 1 (by decide)

end Parser

end Backtrack
