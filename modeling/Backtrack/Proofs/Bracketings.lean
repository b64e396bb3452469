/-
Sequences in brackets. Parsers in a row can be paired up in any way, or be run by a body one after the
other. Main statement: all these ways agree, on the values and the cursor behind them, on the error of
the first parser that does not succeed, and on the calls that are made (`bracketing_eq_scope`).

Both come to what the parsers come to in turn (`inTurn`), each from where the one before it left off:
a bracketing by induction on its pairs, and a body along its loop.
-/
import Backtrack.Proofs.Calls
import Backtrack.Scope

namespace Backtrack

instance : LawfulMonad Body :=
  LawfulMonad.mk' Body
    (fun b => by
      funext s
      show (b >>= fun a => pure a) s = b s
      rw [Body.bind_apply]
      rcases b s with ⟨_ | _ | _, t⟩ <;> rfl)
    (fun _ _ => rfl)
    (fun b k l => by
      funext s
      rw [Body.bind_apply, Body.bind_apply, Body.bind_apply]
      rcases b s with ⟨_ | _ | _, t⟩ <;> rfl)

namespace Parser

variable {α β : Type}

/-! ## Parsers in turn -/

/-- Parsers one after the other, with the list of their values. -/
def inTurn : List (Parser α) → Parser (List α)
  | [] => succeed []
  | p :: ps => (p.and (inTurn ps)).map fun r => r.1 :: r.2

theorem inTurn_cons (p : Parser α) (ps : List (Parser α)) (c : Cursor) :
    inTurn (p :: ps) c = p c >>= fun r => inTurn ps r.2 >>= fun rs => .ok (r.1 :: rs.1, rs.2) := by
  rw [inTurn, Parser.map, Parser.and]
  cases p c with
  | ok r =>
    simp only [Outcome.ok_bind]
    cases inTurn ps r.2 <;> rfl
  | error e => rfl
  | unfinished => rfl

theorem inTurn_append (ps qs : List (Parser α)) (c : Cursor) :
    inTurn (ps ++ qs) c =
      inTurn ps c >>= fun r => inTurn qs r.2 >>= fun s => .ok (r.1 ++ s.1, s.2) := by
  induction ps generalizing c with
  | nil =>
    show inTurn qs c = inTurn qs c >>= fun s => .ok s
    cases inTurn qs c <;> rfl
  | cons p ps ih =>
    rw [List.cons_append, inTurn_cons, inTurn_cons, bind_assoc]
    simp only [ih, bind_assoc, Outcome.ok_bind, List.cons_append]

/-- A body that runs parsers one after the other and gives their values comes to what they come to. -/
theorem ofBody_mapM_run (ps : List (Parser α)) : ofBody (ps.mapM Body.run) = inTurn ps := by
  induction ps with
  | nil => rfl
  | cons p ps ih =>
    funext c
    rw [List.mapM_cons, ofBody_run_bind, inTurn_cons]
    simp only [ofBody_bind_pure, ih]
    rfl

/-- The parsers succeed in turn, with these values, and the last one ends at this cursor. -/
inductive AllSucceed : List (Parser α) → Cursor → List α → Cursor → Prop where
  | nil (c : Cursor) : AllSucceed [] c [] c
  | cons {p : Parser α} {ps : List (Parser α)} {c d e : Cursor} {a : α} {as : List α} :
      p c = .ok (a, d) → AllSucceed ps d as e → AllSucceed (p :: ps) c (a :: as) e

/-- The cursors from which parsers in turn are called, in order: there is none behind the first parser
that does not succeed. -/
def callsInTurn : List (Parser α) → Cursor → List Cursor
  | [], _ => []
  | p :: ps, c => c ::
    match p c with
    | .ok (_, d) => callsInTurn ps d
    | _ => []

section

variable {p : Parser α} {ps : List (Parser α)} {c d : Cursor} {a : α} {as : List α}

theorem callsInTurn_cons_ok (hp : p c = .ok (a, d)) (ps : List (Parser α)) :
    callsInTurn (p :: ps) c = c :: callsInTurn ps d := by
  rw [callsInTurn, hp]

theorem callsInTurn_cons_error {e : ParseError} (hp : p c = .error e) (ps : List (Parser α)) :
    callsInTurn (p :: ps) c = [c] := by
  rw [callsInTurn, hp]

theorem inTurn_eq_ok_iff : inTurn ps c = .ok (as, d) ↔ AllSucceed ps c as d := by
  induction ps generalizing c as with
  | nil =>
    constructor
    · rintro ⟨⟩
      exact .nil _
    · rintro ⟨⟩
      rfl
  | cons p ps ih =>
    rw [inTurn_cons, Outcome.bind_eq_ok_iff]
    constructor
    · rintro ⟨r, hp, h⟩
      obtain ⟨rs, hps, h⟩ := Outcome.bind_eq_ok_iff.1 h
      cases h
      exact .cons hp (ih.1 hps)
    · intro h
      cases h with
      | @cons _ _ _ e _ b bs hp hps => exact ⟨(b, e), hp, by rw [ih.2 hps, Outcome.ok_bind]⟩

/-- The error of parsers in turn is that of the first that does not succeed, and it is the last one that
is called. -/
theorem inTurn_eq_error_iff {e : ParseError} : inTurn ps c = .error e ↔
    ∃ before p after as d, ps = before ++ p :: after ∧ AllSucceed before c as d ∧ p d = .error e ∧
      (callsInTurn ps c).length = before.length + 1 := by
  induction ps generalizing c with
  | nil => simp [inTurn, succeed]
  | cons p ps ih =>
    rw [inTurn_cons]
    constructor
    · intro h
      cases hp : p c with
      | ok r =>
        -- the first parser succeeds, so it is one behind it that fails
        have hps : inTurn ps r.2 = .error e := by
          rw [hp, Outcome.ok_bind] at h
          cases hx : inTurn ps r.2 <;> rw [hx] at h <;> cases h
          rfl
        obtain ⟨before, q, after, as, d, rfl, hbefore, hq, hlength⟩ := ih.1 hps
        refine ⟨p :: before, q, after, r.1 :: as, d, rfl, .cons hp hbefore, hq, ?_⟩
        rw [callsInTurn_cons_ok hp, List.length_cons, List.length_cons, hlength]
      | error f =>
        rw [hp] at h
        cases h
        exact ⟨[], p, ps, [], c, rfl, .nil c, hp, by rw [callsInTurn_cons_error hp]; rfl⟩
      | unfinished =>
        rw [hp] at h
        cases h
    · rintro ⟨before, q, after, as, d, hps, hbefore, hq, hlength⟩
      cases hbefore with
      | nil =>
        cases hps
        rw [hq, Outcome.error_bind]
      | cons hp hbefore =>
        cases hps
        rw [callsInTurn_cons_ok hp, List.length_cons, List.length_cons] at hlength
        have hrest := ih.2 ⟨_, q, after, _, d, rfl, hbefore, hq, Nat.succ.inj hlength⟩
        rw [hp, Outcome.ok_bind, hrest, Outcome.error_bind]

/-- Parsers in turn make the calls of this list and no others. -/
theorem inTurn_silenced (i : Nat) (e : Cursor) (h : inTurn ps c ≠ .unfinished) :
    inTurn (ps.modify i (silencedAt e)) c = .unfinished ↔ (callsInTurn ps c)[i]? = some e := by
  induction ps generalizing c i with
  | nil => simp [inTurn, succeed, callsInTurn]
  | cons p ps ih =>
    rw [inTurn_cons] at h
    cases i with
    | zero =>
      rw [List.modify_zero_cons, inTurn_cons, callsInTurn, List.getElem?_cons_zero, Option.some_inj]
      -- the first parser is called once, at the start
      by_cases hc : c = e
      · subst hc
        simp only [silencedAt_self, Outcome.unfinished_bind]
      · rw [silencedAt_of_ne p hc]
        simp only [h, hc]
    | succ i =>
      rw [List.modify_succ_cons, inTurn_cons]
      cases hp : p c with
      | ok r =>
        rw [hp, Outcome.ok_bind] at h
        have hrest := (Outcome.returned_of_bind h).1
        rw [callsInTurn_cons_ok hp, List.getElem?_cons_succ, ← ih i hrest, Outcome.ok_bind]
        cases inTurn (ps.modify i (silencedAt e)) r.2 <;> simp
      | error f => rw [callsInTurn_cons_error hp]; simp
      | unfinished => rw [hp] at h; exact absurd rfl h

end

end Parser

/-! ## Brackets -/

/-- Parsers in brackets: one parser, or two bracketings in a pair. -/
inductive Bracketing (α : Type) where
  | one (p : Parser α)
  | pair (l r : Bracketing α)

namespace Bracketing

variable {α : Type}

/-- The parsers without the brackets. -/
def parsers : Bracketing α → List (Parser α)
  | one p => [p]
  | pair l r => l.parsers ++ r.parsers

/-- What the sequence yields: a pair for each pair of brackets. -/
def Result : Bracketing α → Type
  | one _ => α
  | pair l r => l.Result × r.Result

/-- The sequence, with one parser after the other in each pair. -/
def parser : (b : Bracketing α) → Parser b.Result
  | one p => p
  | pair l r => l.parser.and r.parser

/-- The values in the pairs, from the left to the right. -/
def values : (b : Bracketing α) → b.Result → List α
  | one _, a => [a]
  | pair l r, v => l.values v.1 ++ r.values v.2

theorem length_values : ∀ (b : Bracketing α) (v : b.Result), (b.values v).length = b.parsers.length
  | one _, _ => rfl
  | pair l r, v => by
    rw [values, parsers, List.length_append, List.length_append, length_values l, length_values r]

theorem values_injective : ∀ (b : Bracketing α) {v w : b.Result}, b.values v = b.values w → v = w
  | one _, _, _, h => List.singleton_inj.1 h
  | pair l r, v, w, h => by
    -- equally many values on the left, so they part where the brackets do
    have hlength : (l.values v.1).length = (l.values w.1).length := by
      rw [length_values, length_values]
    obtain ⟨hl, hr⟩ := List.append_inj h hlength
    exact Prod.ext (values_injective l hl) (values_injective r hr)

/-- The brackets do not matter: the parsers are run in turn. -/
theorem map_values (b : Bracketing α) (c : Cursor) :
    b.parser.map b.values c = Parser.inTurn b.parsers c := by
  induction b generalizing c with
  | one p =>
    rw [parsers, Parser.inTurn_cons]
    rfl
  | pair l r ihl ihr =>
    rw [parsers, Parser.inTurn_append, ← ihl]
    -- the right half starts wherever the left one stops
    simp only [← ihr]
    show (l.parser.and r.parser).map (pair l r).values c = _
    unfold Parser.map Parser.and
    cases l.parser c with
    | ok v =>
      simp only [Outcome.ok_bind, Outcome.pure_eq]
      cases r.parser v.2 <;> rfl
    | error e => rfl
    | unfinished => rfl

/-- Parsers in a row come to the same in any brackets and in a body that runs them. -/
theorem bracketing_eq_scope (b : Bracketing α) (c : Cursor) :
    b.parser.map b.values c = Parser.ofBody (b.parsers.mapM Body.run) c ∧
    (∀ v d, b.parser c = .ok (v, d) ↔ Parser.AllSucceed b.parsers c (b.values v) d) ∧
    (∀ e, b.parser c = .error e ↔
      ∃ before p after as d, b.parsers = before ++ p :: after ∧
        Parser.AllSucceed before c as d ∧ p d = .error e ∧
        (Parser.callsInTurn b.parsers c).length = before.length + 1) ∧
    (b.parser c ≠ .unfinished → ∀ (b' : Bracketing α) (i : Nat) (d : Cursor),
      b'.parsers = b.parsers.modify i (Parser.silencedAt d) →
        (b'.parser c = .unfinished ↔ (Parser.callsInTurn b.parsers c)[i]? = some d) ∧
        (Parser.ofBody (b'.parsers.mapM Body.run) c = .unfinished ↔
          (Parser.callsInTurn b.parsers c)[i]? = some d)) := by
  have hcalls : Parser.inTurn b.parsers c ≠ .unfinished ↔ b.parser c ≠ .unfinished := by
    rw [← map_values, Ne, Parser.map_eq_unfinished_iff]
  simp only [Parser.ofBody_mapM_run]
  refine ⟨b.map_values c, fun v d => ?_, fun e => ?_, fun h b' i d hb' => ?_⟩
  · rw [← Parser.inTurn_eq_ok_iff, ← map_values, Parser.map_eq_ok_iff]
    constructor
    · intro hv
      exact ⟨v, hv, rfl⟩
    · rintro ⟨w, hw, heq⟩
      rwa [← b.values_injective heq]
  · rw [← Parser.inTurn_eq_error_iff, ← map_values, Parser.map_eq_error_iff]
  · have hiff := Parser.inTurn_silenced i d (hcalls.2 h)
    rw [← hb'] at hiff
    rw [← Parser.map_eq_unfinished_iff (f := b'.values), map_values]
    exact ⟨hiff, hiff⟩

/-- Two pairs in a pair: the first of them changes the settings, the last parser is read behind a letter
that may be missing. -/
def letters (last : Parser Text) : Bracketing Text :=
  pair (pair (one (Parser.literal "é")) (one ((Parser.configure ⟨.stop, some 1⟩).map fun _ => [])))
    (pair (one (Parser.literal "b")) (one last))

/-- Where the letter is missing, both ways fail there under the new settings, and the last parser is
not asked. -/
theorem bracketing_eq_scope_letters :
    (letters (Parser.literal "c")).parser ⟨"éxc".toList, 0, ⟨.fail, none⟩⟩ ≠ .unfinished ∧
    Parser.ofBody ((letters (Parser.literal "c")).parsers.mapM Body.run)
        ⟨"éxc".toList, 0, ⟨.fail, none⟩⟩ =
      .error (.failure ⟨⟨"éxc".toList, 2⟩, "\"b\"", .atomic, some 1⟩) ∧
    ∀ d, (letters ((Parser.literal "c").silencedAt d)).parser ⟨"éxc".toList, 0, ⟨.fail, none⟩⟩ ≠
      .unfinished := by
  obtain ⟨hscope, -, -, hcalls⟩ :=
    bracketing_eq_scope (letters (Parser.literal "c")) ⟨"éxc".toList, 0, ⟨.fail, none⟩⟩
  have hreturned : (letters (Parser.literal "c")).parser ⟨"éxc".toList, 0, ⟨.fail, none⟩⟩ ≠
      .unfinished := by
    intro h
    cases h
  refine ⟨hreturned, hscope.symm.trans rfl, fun d h => ?_⟩
  have hcalled := ((hcalls hreturned (letters ((Parser.literal "c").silencedAt d)) 3 d rfl).1.1 h)
  cases hcalled

end Bracketing

end Backtrack
