/-
Parsing expressions, and what they do by the usual big-step rules: an expression that is started
at a position of a text succeeds at a position or fails there, or does neither. Main statements:
the rules decide at most one way (`Matches.functional`), and a repetition of an expression that
succeeds on the spot does neither (`Derives.not_star_of_idle`).

Some grammars say the same as a parsing expression (`Grammar.peg`). What is no construct of
expressions is put together from those: a text character by character, a span by repetition,
failure and the end of the text by negation.
-/
import Backtrack.Grammar
import Backtrack.Parser.Choice

namespace Backtrack

inductive Peg where
  /-- The empty match. -/
  | empty
  /-- One character that satisfies a predicate. -/
  | char (keep : Char → Bool)
  | seq (a b : Peg)
  /-- Ordered choice. -/
  | choice (a b : Peg)
  /-- Greedy repetition. -/
  | star (a : Peg)
  /-- Negative lookahead. -/
  | not (a : Peg)
  /-- The expression of a name. -/
  | ref (name : String)

namespace Peg

/-- A given text. -/
def text : Text → Peg
  | [] => .empty
  | ch :: t => .seq (.char (· == ch)) (text t)

/-- The longest span of characters that satisfy a predicate. -/
def span (keep : Char → Bool) : Peg := .star (.char keep)

def fail : Peg := .not .empty

def endOfText : Peg := .not (.char fun _ => true)

/-- One match or more. -/
def plus (a : Peg) : Peg := .seq a (.star a)

/-- A match or none. -/
def optional (a : Peg) : Peg := .choice a .empty

/-! ## The big-step rules -/

variable (rules : String → Option Peg) (t : Text)

/-- An expression that is started at a position of the text succeeds at a position, or fails
(`none`). The number is that of the rules applied. -/
inductive Derives : Peg → Nat → Nat → Option Nat → Prop
  | empty {i : Nat} : Derives .empty i 1 (some i)
  | char {keep : Char → Bool} {i : Nat} {ch : Char} {r : Text} : t.after? i = some (ch :: r) →
      keep ch = true → Derives (.char keep) i 1 (some (i + ch.utf8Size))
  | charOther {keep : Char → Bool} {i : Nat} {ch : Char} {r : Text} : t.after? i = some (ch :: r) →
      keep ch = false → Derives (.char keep) i 1 none
  | charEnd {keep : Char → Bool} {i : Nat} : t.after? i = some [] → Derives (.char keep) i 1 none
  | seq {a b : Peg} {i j m n : Nat} {o : Option Nat} : Derives a i m (some j) → Derives b j n o →
      Derives (.seq a b) i (m + n + 1) o
  | seqFail {a b : Peg} {i m : Nat} : Derives a i m none → Derives (.seq a b) i (m + 1) none
  | first {a b : Peg} {i j m : Nat} : Derives a i m (some j) →
      Derives (.choice a b) i (m + 1) (some j)
  | second {a b : Peg} {i m n : Nat} {o : Option Nat} : Derives a i m none → Derives b i n o →
      Derives (.choice a b) i (m + n + 1) o
  | more {a : Peg} {i j m n : Nat} {o : Option Nat} : Derives a i m (some j) →
      Derives (.star a) j n o → Derives (.star a) i (m + n + 1) o
  | stop {a : Peg} {i m : Nat} : Derives a i m none → Derives (.star a) i (m + 1) (some i)
  | notMatch {a : Peg} {i m : Nat} : Derives a i m none → Derives (.not a) i (m + 1) (some i)
  | notFail {a : Peg} {i j m : Nat} : Derives a i m (some j) → Derives (.not a) i (m + 1) none
  | ref {name : String} {e : Peg} {i m : Nat} {o : Option Nat} : rules name = some e →
      Derives e i m o → Derives (.ref name) i (m + 1) o

/-- The rules derive that an expression succeeds at a position or fails. -/
def Matches (e : Peg) (i : Nat) (o : Option Nat) : Prop := ∃ m, Derives rules t e i m o

variable {rules t}

/-! ## Facts about the rules -/

/-- An expression does not do two things at one position. -/
theorem Derives.functional {e : Peg} {i m n : Nat} {o o' : Option Nat}
    (h : Derives rules t e i m o) (h' : Derives rules t e i n o') : o = o' := by
  induction h generalizing n o' with
  | empty => cases h'; rfl
  | char ht hk =>
    cases h' with
    | char ht' => rw [ht] at ht'; cases ht'; rfl
    | charOther ht' hk' => rw [ht] at ht'; cases ht'; rw [hk] at hk'; cases hk'
    | charEnd ht' => rw [ht] at ht'; cases ht'
  | charOther ht hk =>
    cases h' with
    | char ht' hk' => rw [ht] at ht'; cases ht'; rw [hk] at hk'; cases hk'
    | charOther => rfl
    | charEnd => rfl
  | charEnd ht =>
    cases h' with
    | char ht' => rw [ht] at ht'; cases ht'
    | charOther => rfl
    | charEnd => rfl
  | seq _ _ iha ihb =>
    cases h' with
    | seq ha hb => cases iha ha; exact ihb hb
    | seqFail ha => cases iha ha
  | seqFail _ iha =>
    cases h' with
    | seq ha hb => cases iha ha
    | seqFail ha => rfl
  | first _ iha =>
    cases h' with
    | first ha => exact iha ha
    | second ha hb => cases iha ha
  | second _ _ iha ihb =>
    cases h' with
    | first ha => cases iha ha
    | second ha hb => exact ihb hb
  | more _ _ iha ihs =>
    cases h' with
    | more ha hs => cases iha ha; exact ihs hs
    | stop ha => cases iha ha
  | stop _ iha =>
    cases h' with
    | more ha hs => cases iha ha
    | stop ha => rfl
  | notMatch _ iha =>
    cases h' with
    | notMatch ha => rfl
    | notFail ha => cases iha ha
  | notFail _ iha =>
    cases h' with
    | notMatch ha => cases iha ha
    | notFail ha => rfl
  | ref hn _ ih =>
    cases h' with
    | ref hn' h => rw [hn] at hn'; cases hn'; exact ih h

/-- What follows the empty iteration of a repetition is the same repetition again, without end. -/
theorem Derives.not_star_of_idle {a : Peg} {i m : Nat} (ha : Derives rules t a i m (some i)) :
    ∀ {n : Nat} {o : Option Nat}, ¬ Derives rules t (.star a) i n o := by
  intro n
  induction n using Nat.strongRecOn with
  | _ n ih =>
    intro o hs
    cases hs with
    | more ha' hs' =>
      cases ha.functional ha'
      exact ih _ (by omega) hs'
    | stop ha' => cases ha.functional ha'

/-! ## What the rules derive -/

namespace Matches

variable {a b : Peg} {i j : Nat} {o o' : Option Nat}

theorem functional (h : Matches rules t a i o) (h' : Matches rules t a i o') : o = o' := by
  obtain ⟨m, h⟩ := h
  obtain ⟨n, h'⟩ := h'
  exact h.functional h'

theorem empty (i : Nat) : Matches rules t .empty i (some i) := ⟨_, .empty⟩

theorem fail (i : Nat) : Matches rules t .fail i none := ⟨_, .notFail .empty⟩

theorem seq (ha : Matches rules t a i (some j)) (hb : Matches rules t b j o) :
    Matches rules t (.seq a b) i o := by
  obtain ⟨m, ha⟩ := ha
  obtain ⟨n, hb⟩ := hb
  exact ⟨_, .seq ha hb⟩

theorem seqFail (b : Peg) (ha : Matches rules t a i none) : Matches rules t (.seq a b) i none := by
  obtain ⟨m, ha⟩ := ha
  exact ⟨_, .seqFail ha⟩

theorem first (b : Peg) (ha : Matches rules t a i (some j)) :
    Matches rules t (.choice a b) i (some j) := by
  obtain ⟨m, ha⟩ := ha
  exact ⟨_, .first ha⟩

theorem second (ha : Matches rules t a i none) (hb : Matches rules t b i o) :
    Matches rules t (.choice a b) i o := by
  obtain ⟨m, ha⟩ := ha
  obtain ⟨n, hb⟩ := hb
  exact ⟨_, .second ha hb⟩

theorem more (ha : Matches rules t a i (some j)) (hs : Matches rules t (.star a) j o) :
    Matches rules t (.star a) i o := by
  obtain ⟨m, ha⟩ := ha
  obtain ⟨n, hs⟩ := hs
  exact ⟨_, .more ha hs⟩

theorem stop (ha : Matches rules t a i none) : Matches rules t (.star a) i (some i) := by
  obtain ⟨m, ha⟩ := ha
  exact ⟨_, .stop ha⟩

theorem ref {name : String} (hn : rules name = some a) (ha : Matches rules t a i o) :
    Matches rules t (.ref name) i o := by
  obtain ⟨m, ha⟩ := ha
  exact ⟨_, .ref hn ha⟩

/-! ## Characters and spans -/

theorem char {keep : Char → Bool} {ch : Char} {r : Text} (ht : t.after? i = some (ch :: r)) :
    Matches rules t (.char keep) i (if keep ch then some (i + ch.utf8Size) else none) := by
  cases hk : keep ch with
  | true => exact ⟨_, .char ht hk⟩
  | false => exact ⟨_, .charOther ht hk⟩

theorem charEnd (keep : Char → Bool) (ht : t.after? i = some []) :
    Matches rules t (.char keep) i none := ⟨_, .charEnd ht⟩

theorem endOfText {r : Text} (ht : t.after? i = some r) :
    Matches rules t .endOfText i (if r = [] then some i else none) := by
  cases r with
  | nil =>
    obtain ⟨m, h⟩ : Matches rules t (.char fun _ => true) i none := charEnd _ ht
    exact ⟨_, .notMatch h⟩
  | cons ch r =>
    obtain ⟨m, h⟩ : Matches rules t (.char fun _ => true) i (some (i + ch.utf8Size)) := char ht
    exact ⟨_, .notFail h⟩

/-- Behind one character. -/
theorem after?_next {ch : Char} {r : Text} (ht : t.after? i = some (ch :: r)) :
    t.after? (i + ch.utf8Size) = some r :=
  Text.after?_add_size (s := [ch]) ht

theorem text : ∀ {s r : Text} {i : Nat}, t.after? i = some r →
    Matches rules t (.text s) i (if s.isPrefixOf r then some (i + s.size) else none)
  | [], r, i, _ => empty i
  | ch :: s, [], i, ht => seqFail (.text s) (charEnd _ ht)
  | ch :: s, ch' :: r, i, ht => by
    have hch : Matches rules t (.char (· == ch)) i _ := char ht
    rw [List.isPrefixOf_cons_cons]
    by_cases heq : ch = ch'
    · subst heq
      rw [beq_self_eq_true, if_pos rfl] at hch
      rw [beq_self_eq_true, Bool.true_and, Text.size_cons, ← Nat.add_assoc]
      exact hch.seq (text (after?_next ht))
    · rw [if_neg (by simpa using Ne.symm heq)] at hch
      rw [if_neg (by simp [heq])]
      exact hch.seqFail (.text s)

theorem span {keep : Char → Bool} : ∀ {r : Text} {i : Nat}, t.after? i = some r →
    Matches rules t (.span keep) i (some (i + Text.size (r.takeWhile keep)))
  | [], i, ht => (charEnd keep ht).stop
  | ch :: r, i, ht => by
    have hch : Matches rules t (.char keep) i _ := char ht
    cases hk : keep ch with
    | true =>
      rw [hk, if_pos rfl] at hch
      rw [List.takeWhile_cons_of_pos hk, Text.size_cons, ← Nat.add_assoc]
      exact hch.more (span (after?_next ht))
    | false =>
      rw [hk, if_neg Bool.false_ne_true] at hch
      rw [List.takeWhile_cons_of_neg (by simp [hk])]
      exact hch.stop

/-- A span of at least one character. -/
theorem plusSpan {keep : Char → Bool} {r : Text} (ht : t.after? i = some r) :
    Matches rules t (.plus (.char keep)) i
      (if r.takeWhile keep = [] then none else some (i + Text.size (r.takeWhile keep))) := by
  cases r with
  | nil => exact (charEnd keep ht).seqFail _
  | cons ch r =>
    have hch : Matches rules t (.char keep) i _ := char ht
    cases hk : keep ch with
    | true =>
      rw [hk, if_pos rfl] at hch
      rw [List.takeWhile_cons_of_pos hk, if_neg (List.cons_ne_nil _ _), Text.size_cons,
        ← Nat.add_assoc]
      exact hch.seq (span (after?_next ht))
    | false =>
      rw [hk, if_neg Bool.false_ne_true] at hch
      rw [List.takeWhile_cons_of_neg (by simp [hk]), if_pos rfl]
      exact hch.seqFail _

end Matches

end Peg

/-! ## The expressions that grammars stand for -/

mutual

/-- The parsing expression that says the same as a grammar, if there is one: the grammar looks at
the text and goes forward in it, and does nothing else. -/
def Grammar.peg : Grammar → Option Peg
  | .literal s => some (.text s.toList)
  | .takeWhile keep => some (.span keep)
  | .nonEmpty (.takeWhile keep) => some (.plus (.char keep))
  | .char keep _ => some (.char keep)
  | .endOfInput => some .endOfText
  | .succeed _ => some .empty
  | .fail _ => some .fail
  | .and a b => do return .seq (← a.peg) (← b.peg)
  | .map g _ => g.peg
  | .many g => do return .star (← g.peg)
  | .many1 g => do return .plus (← g.peg)
  -- a choice of one entry at most may miss
  | .choice [] _ => some .empty
  | .choice [g] none => do return .optional (← g.peg)
  | .choice gs _ => Grammar.pegFirst gs
  | .alt gs _ => Grammar.pegFirst gs
  | .ref name => some (.ref name)
  | _ => none

/-- The ordered choice of all grammars of a list. -/
def Grammar.pegFirst : List Grammar → Option Peg
  | [] => some .fail
  | g :: gs => do return .choice (← g.peg) (← Grammar.pegFirst gs)

end

/-- The expressions that rules stand for. -/
def Rules.peg (rules : Rules) (name : String) : Option Peg := (rules name).bind Grammar.peg

namespace Grammar

variable {a b g : Grammar} {gs : List Grammar} {e : Peg}

theorem peg_and (h : (and a b).peg = some e) :
    ∃ x y, a.peg = some x ∧ b.peg = some y ∧ e = .seq x y := by
  simp only [peg, Option.bind_eq_bind, Option.bind_eq_some_iff, Option.pure_def,
    Option.some.injEq] at h
  obtain ⟨x, hx, y, hy, rfl⟩ := h
  exact ⟨x, y, hx, hy, rfl⟩

theorem peg_many (h : (many g).peg = some e) : ∃ x, g.peg = some x ∧ e = .star x := by
  simp only [peg, Option.bind_eq_bind, Option.bind_eq_some_iff, Option.pure_def,
    Option.some.injEq] at h
  obtain ⟨x, hx, rfl⟩ := h
  exact ⟨x, hx, rfl⟩

theorem peg_many1 (h : (many1 g).peg = some e) : ∃ x, g.peg = some x ∧ e = .plus x := by
  simp only [peg, Option.bind_eq_bind, Option.bind_eq_some_iff, Option.pure_def,
    Option.some.injEq] at h
  obtain ⟨x, hx, rfl⟩ := h
  exact ⟨x, hx, rfl⟩

theorem pegFirst_cons (h : pegFirst (g :: gs) = some e) :
    ∃ x y, g.peg = some x ∧ pegFirst gs = some y ∧ e = .choice x y := by
  simp only [pegFirst, Option.bind_eq_bind, Option.bind_eq_some_iff, Option.pure_def,
    Option.some.injEq] at h
  obtain ⟨x, hx, y, hy, rfl⟩ := h
  exact ⟨x, y, hx, hy, rfl⟩

/-- A choice of nothing, of one candidate without a message, or of two entries and more. -/
theorem peg_choice {message : Option String} (h : (choice gs message).peg = some e) :
    (gs = [] ∧ e = .empty) ∨
      (∃ g x, gs = [g] ∧ message = none ∧ g.peg = some x ∧ e = .optional x) ∨
      (1 < Parser.entries message gs.length ∧ pegFirst gs = some e) := by
  match gs, message, h with
  | [], _, h =>
    cases h
    exact .inl ⟨rfl, rfl⟩
  | [g], none, h =>
    simp only [peg, Option.bind_eq_bind, Option.bind_eq_some_iff, Option.pure_def,
      Option.some.injEq] at h
    obtain ⟨x, hx, rfl⟩ := h
    exact .inr (.inl ⟨g, x, rfl, rfl, hx, rfl⟩)
  | [g], some message, h => exact .inr (.inr ⟨by simp [Parser.entries], h⟩)
  | g :: g' :: gs, message, h => exact .inr (.inr ⟨by simp [Parser.entries]; omega, h⟩)

end Grammar

theorem Rules.exists_peg {rules : Rules} {name : String} {e : Peg} (h : rules.peg name = some e) :
    ∃ g, rules name = some g ∧ g.peg = some e := Option.bind_eq_some_iff.1 h

end Backtrack
