/-
Nested parentheses, read by a parser that calls itself between an opening and a closing one, and by a
grammar whose rule does. Main statement: neither ever fails, and what they find depends on the opening
parentheses at the front and on how many closing ones follow them: all levels, if there are enough of
them, and otherwise none (`nesting_depth`).

A level that is not closed is an empty match at its own start, so the level around it meets an opening
parenthesis where a closing one should be, and is not closed either (`Nested.unclosed`).
-/
import Backtrack.Proofs.LongestSpan
import Backtrack.Proofs.Reading

namespace Backtrack

/-! ## The parser -/

namespace Parser

/-- What a parser reads, in parentheses. The depth is one more than inside. -/
def parenthesized (inner : Parser Nat) : Parser Nat := ofBody do
  let _ ← Body.run (literal "(")
  let depth ← Body.run inner
  let _ ← Body.run (literal ")")
  return depth + 1

/-- The depth of nested parentheses; there need not be any. The budget is the largest number of calls
within each other. -/
def nesting : Nat → Parser Nat
  | 0 => fun _ => .unfinished
  | budget + 1 => (optional (parenthesized (nesting budget))).map fun depth => depth.getD 0

end Parser

/-- The parentheses of the grammar, around what the rule they stand in reads. -/
def nestingBlock : Grammar :=
  .block [.run (.literal "("), .run (.ref "nesting"), .run (.literal ")")] (some 1)

def nestingRules : Rules
  | "nesting" => some (.map (.optional (.map nestingBlock .succ)) (.unwrapOr 0))
  | _ => none

/-! ## Texts -/

namespace Text

/-- The number of opening parentheses at the front of a text. -/
def openings (t : Text) : Nat := (t.takeWhile (· == '(')).length

/-- The depth of the parentheses at the front of a text: all that are opened, if as many closing ones
follow, and otherwise none. -/
def depth (t : Text) : Nat :=
  if List.replicate t.openings ')' <+: t.drop t.openings then t.openings else 0

end Text

/-- A text is read up to a depth, in front of another one. A level that is not closed is not read, and
so the level around it is not closed. -/
inductive Nested : Text → Nat → Text → Prop where
  | absent {rest : Text} : rest.opensWith (· == '(') = false → Nested [] 0 rest
  | closed {t rest : Text} {d : Nat} :
      Nested t d (')' :: rest) → Nested ('(' :: (t ++ [')'])) (d + 1) rest
  | unclosed {t rest : Text} {d : Nat} :
      Nested t d rest → rest.opensWith (· == ')') = false → Nested [] 0 ('(' :: (t ++ rest))

namespace Nested

variable {t rest : Text} {k d : Nat}

/-- A level takes two bytes. -/
theorem size_eq (h : Nested t d rest) : t.size = 2 * d := by
  induction h with
  | absent _ => rfl
  | @closed t rest d _ ih =>
    have hopen : '('.utf8Size = 1 := rfl
    have hclose : ')'.utf8Size = 1 := rfl
    rw [Text.size_cons, Text.size_append, Text.size_cons, Text.size_nil, ih, hopen, hclose]
    omega
  | unclosed _ _ _ => rfl

/-- As many levels are read as are opened, if they are all closed. -/
theorem of_closed (hrest : Text.opensWith (· == '(') (List.replicate k ')' ++ rest) = false) :
    Nested (List.replicate k '(' ++ List.replicate k ')') k rest := by
  induction k generalizing rest with
  | zero => exact .absent hrest
  | succ k ih =>
    rw [List.replicate_succ', List.append_assoc, List.singleton_append] at hrest
    -- the closing parenthesis of the level is the last one of all
    have hinner := closed (ih hrest)
    rwa [List.append_assoc, ← List.replicate_succ', ← List.cons_append, ← List.replicate_succ]
      at hinner

/-- No level is read if not all are closed. -/
theorem of_unclosed (hrest : rest.opensWith (· == '(') = false)
    (hopen : ¬ List.replicate k ')' <+: rest) : Nested [] 0 (List.replicate k '(' ++ rest) := by
  induction k with
  | zero => exact absurd List.nil_prefix hopen
  | succ k ih =>
    rw [List.replicate_succ, List.cons_append]
    by_cases hinner : List.replicate k ')' <+: rest
    · -- the levels inside are closed, and nothing is left to close the outermost one
      obtain ⟨r, rfl⟩ := hinner
      have hr : Text.opensWith (· == ')') r = false := by
        cases r with
        | nil => rfl
        | cons ch r =>
          refine Bool.eq_false_iff.2 fun hch => hopen ?_
          obtain rfl : ch = ')' := eq_of_beq hch
          have hclose : List.replicate k ')' ++ ')' :: r = List.replicate (k + 1) ')' ++ r := by
            rw [List.replicate_succ', List.append_assoc, List.singleton_append]
          rw [hclose]
          exact List.prefix_append _ _
      rw [← List.append_assoc]
      exact .unclosed (of_closed hrest) hr
    · -- there is a level inside, and it is not closed
      obtain ⟨j, rfl⟩ : ∃ j, k = j + 1 := by
        cases k with
        | zero => exact absurd List.nil_prefix hinner
        | succ j => exact ⟨j, rfl⟩
      have houtside := unclosed (ih hinner) rfl
      exact houtside

/-- Every text is read up to its depth. -/
theorem exists_of_text (u : Text) : ∃ t rest, u = t ++ rest ∧ Nested t u.depth rest := by
  have hfront := Text.LongestFront.of_takeWhile (· == '(') u
  have hopenings : u.takeWhile (· == '(') = List.replicate u.openings '(' :=
    List.eq_replicate_iff.2 ⟨rfl, fun ch hch => eq_of_beq (hfront.inside ch hch)⟩
  have hdrop : u.drop u.openings = u.dropWhile (· == '(') := by
    calc u.drop u.openings
      _ = (u.takeWhile (· == '(') ++ u.dropWhile (· == '(')).drop u.openings := by rw [← hfront.text]
      _ = u.dropWhile (· == '(') := List.drop_left
  have htext := hfront.text
  have hrest := hfront.outside
  rw [hopenings] at htext
  rw [Text.depth, hdrop]
  -- all levels are closed, or the outermost one is not
  split
  · next hclosed =>
    obtain ⟨r, hr⟩ := hclosed
    rw [← hr] at htext hrest
    exact ⟨_, r, by rw [List.append_assoc, ← htext], of_closed hrest⟩
  · next hopen =>
    have hnone := of_unclosed hrest hopen
    rw [← htext] at hnone
    exact ⟨[], u, rfl, hnone⟩

end Nested

/-! ## What is read -/

namespace Parser

variable {inner : Parser Nat} {t rest : Text} {d : Nat}

theorem parenthesized_apply (inner : Parser Nat) (c : Cursor) :
    parenthesized inner c = literal "(" c >>= fun r => inner r.2 >>= fun s =>
      literal ")" s.2 >>= fun u => .ok (s.1 + 1, u.2) := by
  rw [parenthesized, ofBody_run_bind]
  simp only [ofBody_run_bind]
  rfl

theorem refuses_literal_of_opensWith {s : String} {ch : Char} (hs : s.toList = [ch])
    (h : rest.opensWith (· == ch) = false) : (literal s).Refuses rest := by
  refine refuses_literal ?_
  rw [hs]
  cases rest with
  | nil => rfl
  | cons other rest =>
    rw [Text.opensWith_cons, BEq.comm] at h
    rw [List.isPrefixOf_cons_cons, h, Bool.false_and]

theorem refuses_parenthesized (inner : Parser Nat) (h : rest.opensWith (· == '(') = false) :
    (parenthesized inner).Refuses rest := by
  intro c hc
  obtain ⟨f, hf⟩ := refuses_literal_of_opensWith (s := "(") rfl h c hc
  rw [parenthesized_apply, hf]
  exact ⟨f, rfl⟩

/-- Behind what is read inside it is the closing parenthesis that counts. -/
theorem parenthesized_of_reads {c : Cursor} (h : inner.Reads t d rest)
    (hc : c.Before (('(' :: t) ++ rest)) : parenthesized inner c =
      literal ")" (c.past ('(' :: t)) >>= fun u => .ok (d + 1, u.2) := by
  have hbefore : Cursor.Before c (['('] ++ (t ++ rest)) := hc
  have hopen : literal "(" c = .ok ("(".toList, c.past ['(']) := reads_literal "(" _ c hbefore
  have hinner := h _ hbefore.past
  rw [Cursor.past_past] at hinner
  simp only [parenthesized_apply, hopen, Outcome.ok_bind, hinner]
  rfl

theorem Reads.parenthesized (h : inner.Reads t d (')' :: rest)) :
    (parenthesized inner).Reads ('(' :: (t ++ [')'])) (d + 1) rest := by
  intro c hc
  have hbefore : Cursor.Before c (('(' :: t) ++ ([')'] ++ rest)) := by
    rw [List.cons_append, List.append_assoc] at hc
    exact hc
  have hclose : literal ")" (c.past ('(' :: t)) = _ := reads_literal ")" rest _ hbefore.past
  rw [parenthesized_of_reads h hbefore, hclose, Outcome.ok_bind, Cursor.past_past]
  rfl

theorem Reads.refuses_parenthesized (h : inner.Reads t d rest)
    (hrest : rest.opensWith (· == ')') = false) :
    (Parser.parenthesized inner).Refuses ('(' :: (t ++ rest)) := by
  intro c hc
  have hbefore : Cursor.Before c (('(' :: t) ++ rest) := hc
  obtain ⟨f, hf⟩ := refuses_literal_of_opensWith (s := ")") rfl hrest _ hbefore.past
  rw [parenthesized_of_reads h hbefore, hf]
  exact ⟨f, rfl⟩

theorem nesting_of_reads {n : Nat} (h : (parenthesized (nesting n)).Reads t d rest) :
    (nesting (n + 1)).Reads t d rest := by
  intro c hc
  rw [nesting, Parser.map, optional_of_ok (h c hc)]
  rfl

theorem nesting_of_refuses {n : Nat} (h : (parenthesized (nesting n)).Refuses rest) :
    (nesting (n + 1)).Reads [] 0 rest := by
  intro c hc
  obtain ⟨f, hf⟩ := h c hc
  rw [nesting, Parser.map, optional_of_failure hf]
  rfl

end Parser

theorem Text.openings_cons (t : Text) : openings ('(' :: t) = openings t + 1 := rfl

/-- A budget of one more than there are opening parentheses is enough. -/
theorem Nested.reads {t rest : Text} {d : Nat} (h : Nested t d rest) {n : Nat}
    (hn : Text.openings (t ++ rest) < n) : (Parser.nesting n).Reads t d rest := by
  induction h generalizing n with
  | absent hrest =>
    obtain ⟨m, rfl⟩ : ∃ m, n = m + 1 := ⟨n - 1, by omega⟩
    exact Parser.nesting_of_refuses (Parser.refuses_parenthesized _ hrest)
  | @closed t rest d _ ih =>
    rw [List.cons_append, List.append_assoc, Text.openings_cons] at hn
    obtain ⟨m, rfl⟩ : ∃ m, n = m + 1 := ⟨n - 1, by omega⟩
    -- the parser inside has one call less to make, and one opening less to read
    exact Parser.nesting_of_reads (ih (Nat.lt_of_succ_lt_succ hn)).parenthesized
  | @unclosed t rest d _ hrest ih =>
    rw [List.nil_append, Text.openings_cons] at hn
    obtain ⟨m, rfl⟩ : ∃ m, n = m + 1 := ⟨n - 1, by omega⟩
    exact Parser.nesting_of_refuses
      ((ih (Nat.lt_of_succ_lt_succ hn)).refuses_parenthesized hrest)

/-! ## The grammar -/

/-- A depth as the grammar counts it, in sixty-four bits. -/
def levels : Nat → Int
  | 0 => 0
  | d + 1 => Bounds.word.next (levels d)

theorem levels_eq {d : Nat} (h : (d : Int) ≤ Bounds.word.greatest) : levels d = d := by
  induction d with
  | zero => rfl
  | succ d ih =>
    rw [levels, ih (by omega), Bounds.next, if_neg (by omega)]
    rfl

namespace Grammar

variable {t rest : Text} {d : Nat}

theorem refuses_literal_of_opensWith {s : String} {ch : Char} (hs : s.toList = [ch])
    (h : rest.opensWith (· == ch) = false) : (literal s).Refuses nestingRules rest :=
  refuses_of_layer (f := .text) (Parser.refuses_literal_of_opensWith hs h) fun _ => rfl

theorem nesting_of_reads {n : Int} (h : nestingBlock.Reads nestingRules t (.int n) rest) :
    (ref "nesting").Reads nestingRules t (.int (Bounds.word.next n)) rest :=
  ((h.map .succ).optional.map (.unwrapOr 0)).ref rfl

theorem nesting_of_refuses (h : nestingBlock.Refuses nestingRules rest) :
    (ref "nesting").Reads nestingRules [] (.int 0) rest :=
  ((h.map .succ).optional.map (.unwrapOr 0)).ref rfl

end Grammar

theorem Nested.grammar_reads {t rest : Text} {d : Nat} (h : Nested t d rest) :
    (Grammar.ref "nesting").Reads nestingRules t (.int (levels d)) rest := by
  induction h with
  | absent hrest =>
    have hopen := Step.refuses_run (Grammar.refuses_literal_of_opensWith (s := "(") rfl hrest)
    exact Grammar.nesting_of_refuses (Grammar.refuses_block_of_steps (.first hopen _) _)
  | @closed t rest d _ ih =>
    have hclose : Step.AllRead nestingRules [.run (.literal ")")] [')'] [.text [')']] rest :=
      .run (Grammar.reads_literal ")" _) (.nil _ _)
    have hsteps := Step.AllRead.run (Grammar.reads_literal "(" _) (.run ih hclose)
    exact Grammar.nesting_of_reads (Grammar.reads_block_result hsteps (some 1))
  | @unclosed t rest d _ hrest ih =>
    have hclose := Step.refuses_run (Grammar.refuses_literal_of_opensWith (s := ")") rfl hrest)
    -- the steps read the levels inside before one refuses
    have hinner := Step.AllRefuse.cons (Step.reads_run ih) (.first hclose [])
    have hsteps := Step.AllRefuse.cons (Step.reads_run (Grammar.reads_literal "(" _)) hinner
    exact Grammar.nesting_of_refuses (Grammar.refuses_block_of_steps hsteps _)

/-- Nested parentheses are read up to their depth, as a parser and as a grammar. -/
theorem nesting_depth {c : Cursor} (hc : c.IsValid) :
    (∀ n, c.remaining.openings < n → Parser.nesting n c =
      .ok (c.remaining.depth, ⟨c.source, c.position + 2 * c.remaining.depth, c.config⟩)) ∧
    (Grammar.ref "nesting").ComesTo nestingRules c (.ok (.int (levels c.remaining.depth),
      ⟨c.source, c.position + 2 * c.remaining.depth, c.config⟩)) ∧
    ((c.remaining.depth : Int) ≤ Bounds.word.greatest →
      levels c.remaining.depth = c.remaining.depth) := by
  obtain ⟨t, rest, htext, hnested⟩ := Nested.exists_of_text c.remaining
  have hbefore : c.Before (t ++ rest) := ⟨hc, htext⟩
  have hpast : c.past t = ⟨c.source, c.position + 2 * c.remaining.depth, c.config⟩ := by
    rw [← hnested.size_eq]
    rfl
  rw [← hpast]
  refine ⟨fun n hn => ?_, hnested.grammar_reads c hbefore, levels_eq⟩
  rw [htext] at hn
  exact hnested.reads hn c hbefore

/-- Two levels that are closed, with one parenthesis left; and two of which the inner one is closed. -/
theorem nesting_depth_pairs :
    Cursor.IsValid ⟨"é(()))".toList, 2, ⟨.stop, some 1⟩⟩ ∧
    Parser.nesting 3 ⟨"é(()))".toList, 2, ⟨.stop, some 1⟩⟩ =
      .ok (2, ⟨"é(()))".toList, 6, ⟨.stop, some 1⟩⟩) ∧
    levels 2 = 2 ∧
    Cursor.IsValid ⟨"(()".toList, 0, .default⟩ ∧
    (Grammar.ref "nesting").ComesTo nestingRules ⟨"(()".toList, 0, .default⟩
      (.ok (.int 0, ⟨"(()".toList, 0, .default⟩)) := by
  have hclosed : Cursor.IsValid ⟨"é(()))".toList, 2, ⟨.stop, some 1⟩⟩ := by decide
  have hopen : Cursor.IsValid ⟨"(()".toList, 0, .default⟩ := by decide
  exact ⟨hclosed, (nesting_depth hclosed).1 3 (by decide), (nesting_depth hclosed).2.2 (by decide),
    hopen, (nesting_depth hopen).2.1⟩

end Backtrack
