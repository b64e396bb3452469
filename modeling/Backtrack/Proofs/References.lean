/-
Which rules a grammar asks for itself. The record of a run has what goes on inside references too;
here it is written without that, so that it shows what the grammar does and leaves to its rules
what they do. Main statements: what a grammar itself does is on the record of its run, in the same
order (`ownRecord_sublist`), and without jumps a rule is asked for at or behind the place where the
grammar started (`Grammar.AsksFor.within`).
-/
import Backtrack.Proofs.Whereabouts

namespace Backtrack

/-! ## What a rule itself calls -/

/-- The calls that a grammar makes itself. What a reference does is done by its rule. -/
def Recording.ownCalls (rules : Rules) (budget : Nat) (m : Meaning) (log : Recording) :
    Grammar → Cursor → List Event
  | .ref _, _ => []
  | g, c => Recording.grammar rules budget m log g c

/-- The record within a budget that does not look into references. -/
def ownRecording (rules : Rules) : Nat → Recording
  | 0 =>
    { parser := fun g c => [.call g c]
      body := fun _ _ => [] }
  | budget + 1 =>
    { parser := fun g => Event.around g ((meaning rules (budget + 1)).parser g)
        (Recording.ownCalls rules budget (meaning rules budget) (ownRecording rules budget) g)
      body := Recording.steps budget (meaning rules budget) (ownRecording rules budget) }

/-- What happens in a grammar itself when it runs from a cursor, in order. -/
def Grammar.ownRecord (rules : Rules) (budget : Nat) (g : Grammar) (c : Cursor) : List Event :=
  (ownRecording rules budget).parser g c

/-- A grammar that runs from a cursor comes itself to a reference, at a given cursor. -/
def Grammar.AsksFor (rules : Rules) (g : Grammar) (c : Cursor) (name : String) (d : Cursor) : Prop :=
  ∃ n, .call (.ref name) d ∈ g.ownRecord rules n c

/-- The node is no jump, and if it refers to a rule then there is one. -/
def Rules.admits (rules : Rules) : Grammar → Bool
  | .jump _ => false
  | .ref name => (rules name).isSome
  | _ => true

/-- The step is no loop. -/
def Step.isBounded : Step → Bool
  | .whileMatch .. => false
  | _ => true

/-- A run without jumps stays in its text, and does not go back behind its start. -/
def Invariant.onward (rules : Rules) (t : Text) (start : Nat) : Invariant where
  cursor := Cursor.Within t start
  error _ := True
  node := rules.admits
  step := Step.isBounded
  advance := Cursor.Within.advance
  configure _ hc := ⟨hc.source, hc.position⟩
  jump h := by cases h
  failure _ _ _ := trivial
  noProgress _ := trivial
  aborted _ := trivial
  invalidStart _ _ := trivial
  failAt _ _ := trivial

/-! ## What a grammar itself does is on record -/

/-- The events of the first log are among those of the second, in the same order. -/
structure Recording.Below (log log' : Recording) : Prop where
  parser : ∀ g c, (log.parser g c).Sublist (log'.parser g c)
  body : ∀ xs s, (log.body xs s).Sublist (log'.body xs s)

theorem Event.around_sublist {g : Grammar} {p : Parser Value} {inside inside' : Cursor → List Event}
    {c : Cursor} (h : (inside c).Sublist (inside' c)) :
    (Event.around g p inside c).Sublist (Event.around g p inside' c) :=
  (h.append (List.Sublist.refl _)).cons_cons _

theorem Outcome.thenRecord_sublist {α : Type} {x : Outcome α} {k k' : α → List Event}
    (h : ∀ a, (k a).Sublist (k' a)) : (x.thenRecord k).Sublist (x.thenRecord k') := by
  cases x with
  | ok a => exact h a
  | _ => exact .slnil

theorem Body.thenRecord_sublist {α : Type} {b : Body α} {s : Scope} {k k' : α → Scope → List Event}
    (h : ∀ a t, (k a t).Sublist (k' a t)) : (b.thenRecord s k).Sublist (b.thenRecord s k') := by
  unfold Body.thenRecord
  split
  · exact h _ _
  · exact .slnil

namespace Recording.Below

variable {m : Meaning} {log log' : Recording}

theorem attempts (h : Below log log') (gs : List Grammar) (c : Cursor) :
    (Recording.attempts m log gs c).Sublist (Recording.attempts m log' gs c) := by
  induction gs with
  | nil => exact .slnil
  | cons g gs ih =>
    refine (h.parser g c).append ?_
    split
    · exact ih
    · exact .slnil

theorem iterate (h : Below log log') (g : Grammar) : ∀ (n : Nat) (c : Cursor),
    (Recording.iterate m log g n c).Sublist (Recording.iterate m log' g n c)
  | 0, _ => .slnil
  | n + 1, c => by
    refine (h.parser g c).append (Outcome.thenRecord_sublist fun r => ?_)
    split
    · exact .slnil
    · exact h.iterate g n r.2

theorem test (h : Below log log') (g : Grammar) (c : Cursor) :
    (Recording.test m log g c).Sublist (Recording.test m log' g c) :=
  Event.around_sublist (h.parser g c)

theorem turns (h : Below log log') (g : Grammar) (xs : List Step) : ∀ (n : Nat) (s : Scope),
    (Recording.turns m log g xs n s).Sublist (Recording.turns m log' g xs n s)
  | 0, _ => .slnil
  | n + 1, s => by
    refine (h.test g s.cursor).append (Body.thenRecord_sublist fun found t => ?_)
    cases found with
    | some v =>
      exact (h.body xs t).append (Body.thenRecord_sublist fun _ u => h.turns g xs n u)
    | none => exact .slnil

theorem step (h : Below log log') (n : Nat) (x : Step) (s : Scope) :
    (Recording.step n m log x s).Sublist (Recording.step n m log' x s) := by
  cases x with
  | run g | skip g | attempt g | peek g => exact h.parser g s.cursor
  | ifMatch g yes no =>
    refine (h.test g s.cursor).append (Body.thenRecord_sublist fun found t => ?_)
    cases found with
    | some v => exact h.body yes _
    | none => exact h.body no t
  | whileMatch g xs => exact h.turns g xs n s
  | _ => exact .slnil

theorem steps (h : Below log log') (n : Nat) : ∀ (xs : List Step) (s : Scope),
    (Recording.steps n m log xs s).Sublist (Recording.steps n m log' xs s)
  | [], _ => .slnil
  | x :: xs, s =>
    ((h.step n x s).cons_cons _).append (Body.thenRecord_sublist fun _ t => h.steps n xs t)

/-- What a grammar calls itself is what it calls, unless it is a reference, which calls nothing. -/
theorem ownCalls (h : Below log log') (rules : Rules) (n : Nat) (g : Grammar) (c : Cursor) :
    (Recording.ownCalls rules n m log g c).Sublist (Recording.grammar rules n m log' g c) := by
  cases g with
  | nonEmpty g | map g f | convert g f => exact h.parser g c
  | and a b =>
    exact (h.parser a c).append (Outcome.thenRecord_sublist fun r => h.parser b r.2)
  | many g | many1 g => exact h.iterate g n c
  | choice gs message | alt gs message => exact h.attempts gs c
  | block xs result => exact h.body xs _
  | ref name => exact List.nil_sublist _
  | number => exact .refl _
  | _ => exact .slnil

end Recording.Below

theorem ownRecording_below (rules : Rules) :
    ∀ n, (ownRecording rules n).Below (recording rules n)
  | 0 => ⟨fun _ _ => .refl _, fun _ _ => .refl _⟩
  | n + 1 =>
    have h := ownRecording_below rules n
    ⟨fun g c => Event.around_sublist (h.ownCalls rules n g c), fun xs s => h.steps n xs s⟩

/-- What a grammar itself does is on the record of its run. -/
theorem ownRecord_sublist (rules : Rules) (n : Nat) (g : Grammar) (c : Cursor) :
    (g.ownRecord rules n c).Sublist (g.record rules n c) :=
  (ownRecording_below rules n).parser g c

/-! ## Where rules are asked for -/

section

variable {rules : Rules} {g : Grammar} {c d : Cursor} {name : String}

theorem Simulation.records_ownRecording {S : Simulation} (hr : rules.All S.node S.step) :
    ∀ n, S.Records (ownRecording rules n)
  | 0 => ⟨fun _ _ _ hc => .cons (fun _ hd => List.mem_singleton.1 hd ▸ hc) tracks_nil,
      fun _ _ _ _ => tracks_nil⟩
  | n + 1 => by
    have hm := run hr n
    have hl := records_ownRecording hr n
    refine ⟨fun g hg => tracks_around g ((run hr (n + 1)).parser g hg) fun c hc => ?_,
      fun _ hxs _ hs => tracks_steps hm hl n hxs hs⟩
    -- a reference calls nothing here, and all others do what they do on the whole record
    cases g with
    | ref name => exact tracks_nil
    | _ => exact tracks_grammar hr hm hl n hg c hc

namespace Grammar.AsksFor

/-- A grammar asks for a rule at or behind its start. -/
theorem within (hr : rules.All rules.admits Step.isBounded)
    (hg : g.all rules.admits Step.isBounded = true) {t : Text} {start : Nat} (hc : c.Within t start)
    (h : g.AsksFor rules c name d) : d.Within t start := by
  obtain ⟨n, h⟩ := h
  have hl : (Invariant.onward rules t start).simulation.Records (ownRecording rules n) :=
    Simulation.records_ownRecording hr n
  exact (hl.parser g hg c ⟨rfl, hc⟩ _ h d List.mem_cons_self).2

/-- A grammar asks for a rule by being a reference to it, or inside. -/
theorem inside (h : g.AsksFor rules c name d) : g = .ref name ∧ d = c ∨
    ∃ n, .call (.ref name) d ∈
      Recording.ownCalls rules n (meaning rules n) (ownRecording rules n) g c := by
  obtain ⟨n, h⟩ := h
  have hcall {l : List Event} (h : Event.call (.ref name) d ∈ .call g c :: l) :
      g = .ref name ∧ d = c ∨ .call (.ref name) d ∈ l := by
    rcases List.mem_cons.1 h with h | h
    · cases h
      exact .inl ⟨rfl, rfl⟩
    · exact .inr h
  cases n with
  | zero =>
    rcases hcall h with h | h
    · exact .inl h
    · cases h
  | succ n =>
    rcases hcall h with h | h
    · exact .inl h
    · rcases List.mem_append.1 h with h | h
      · exact .inr ⟨n, h⟩
      · -- the end of a call is none
        unfold Event.ended at h
        split at h <;> simp at h

theorem ref {other : String} (h : (Grammar.ref other).AsksFor rules c name d) :
    name = other ∧ d = c := by
  rcases h.inside with ⟨heq, hd⟩ | ⟨n, h⟩
  · cases heq
    exact ⟨rfl, hd⟩
  · cases h

theorem and {a b : Grammar} (h : (Grammar.and a b).AsksFor rules c name d) :
    a.AsksFor rules c name d ∨
      ∃ n r, (meaning rules n).parser a c = .ok r ∧ b.AsksFor rules r.2 name d := by
  rcases h.inside with ⟨heq, -⟩ | ⟨n, h⟩
  · cases heq
  · rcases List.mem_append.1 h with h | h
    · exact .inl ⟨n, h⟩
    · cases hrun : (meaning rules n).parser a c with
      | ok r =>
        rw [hrun] at h
        exact .inr ⟨n, r, hrun, n, h⟩
      | _ =>
        rw [hrun] at h
        cases h

theorem of_attempts {n : Nat} : ∀ {gs : List Grammar}, .call (.ref name) d ∈
      Recording.attempts (meaning rules n) (ownRecording rules n) gs c →
    ∃ g ∈ gs, g.AsksFor rules c name d
  | g :: gs, h => by
    rcases List.mem_append.1 h with h | h
    · exact ⟨g, List.mem_cons_self, n, h⟩
    · split at h
      · obtain ⟨g', hg', h⟩ := of_attempts h
        exact ⟨g', List.mem_cons_of_mem _ hg', h⟩
      · cases h

theorem alt {gs : List Grammar} {message : Option String}
    (h : (Grammar.alt gs message).AsksFor rules c name d) : ∃ g ∈ gs, g.AsksFor rules c name d := by
  rcases h.inside with ⟨heq, -⟩ | ⟨n, h⟩
  · cases heq
  · exact of_attempts h

theorem of_iterate {n : Nat} : ∀ {k : Nat} {c : Cursor}, .call (.ref name) d ∈
      Recording.iterate (meaning rules n) (ownRecording rules n) g k c →
    ∃ e, g.AsksFor rules e name d
  | k + 1, c, h => by
    rcases List.mem_append.1 h with h | h
    · exact ⟨c, n, h⟩
    · cases hrun : (meaning rules n).parser g c with
      | ok r =>
        simp only [hrun, Outcome.thenRecord] at h
        split at h
        · cases h
        · exact of_iterate h
      | _ =>
        rw [hrun] at h
        cases h

theorem many (h : (Grammar.many g).AsksFor rules c name d) : ∃ e, g.AsksFor rules e name d := by
  rcases h.inside with ⟨heq, -⟩ | ⟨n, h⟩
  · cases heq
  · exact of_iterate h

end Grammar.AsksFor

/-- Behind a character there is less of the text. -/
theorem position_lt_of_char {keep : Char → Bool} {expected : String} {n : Nat} {r : Value × Cursor}
    (h : (meaning rules n).parser (.char keep expected) c = .ok r) : c.position < r.2.position := by
  cases n with
  | zero => cases h
  | succ n =>
    obtain ⟨⟨ch, d⟩, hchar, hd⟩ := Outcome.bind_eq_ok_iff.1 h
    cases hd
    unfold Parser.char at hchar
    split at hchar
    · next ch hcurrent =>
      split at hchar
      · cases hchar
        simp only [Cursor.next, hcurrent, Cursor.advance]
        have := ch.utf8Size_pos
        omega
      · cases hchar
    · cases hchar

end

end Backtrack
