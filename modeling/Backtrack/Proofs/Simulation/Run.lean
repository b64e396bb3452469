/-
Whole runs side by side. Bodies keep two scopes alike as parsers keep two cursors alike, each
layer of the meaning keeps what the layer below it keeps, and the layers are stacked. Main
statement: runs of one grammar from alike cursors come to alike outcomes within every budget
(`Simulation.run`), whatever the grammar, as long as its nodes and steps and those of the rules
are ones that the simulation admits.
-/
import Backtrack.Proofs.Simulation.Basic

namespace Backtrack

/-! ## Mappings and conversions -/

section

variable {position : Nat → Nat → Prop} {error : ParseError → ParseError → Prop} {v w : Value}

theorem Value.Alike.getElem? {vs ws : List Value}
    (h : List.Forall₂ (Value.Alike position error) vs ws) (i : Nat) :
    Value.Alike position error ((vs[i]?).getD .undefined) ((ws[i]?).getD .undefined) := by
  induction h generalizing i with
  | nil => exact .undefined
  | cons h _ ih =>
    cases i with
    | zero => exact h
    | succ i => simpa using ih i

theorem Value.Alike.isEmptyText_eq (h : Value.Alike position error v w) :
    v.isEmptyText = w.isEmptyText := by
  cases h <;> rfl

theorem Mapping.apply_alike (f : Mapping) (h : Value.Alike position error v w) :
    Value.Alike position error (f.apply v) (f.apply w) := by
  cases f with
  | length =>
    cases h with
    | list h => simp only [Mapping.apply, h.length_eq]; exact .int _
    | text t => exact .int _
    | _ => exact .undefined
  | upper =>
    cases h with
    | text t => exact .text _
    | _ => exact .undefined
  | unit => cases h <;> exact .unit
  | tag name => cases h <;> exact .tagged name (by constructor <;> assumption)
  | succ =>
    cases h with
    | int n => exact .int _
    | _ => exact .undefined
  | unwrapOr n =>
    cases h with
    | some h => exact h
    | none => exact .int n
    | _ => exact .undefined
  | isSome =>
    cases h with
    | some h => exact .bool _
    | none => exact .bool _
    | _ => exact .undefined
  | nth i =>
    cases h with
    | list h => cases i <;> exact Value.Alike.getElem? h _
    | pair ha hb =>
      cases i with
      | zero => exact ha
      | succ i => exact hb
    | _ => cases i <;> exact .undefined

theorem Conversion.apply_alike (f : Conversion) (h : Value.Alike position error v w) :
    (∃ x y, f.apply v = .ok x ∧ f.apply w = .ok y ∧ Value.Alike position error x y) ∨
      ∃ reason, f.apply v = .error reason ∧ f.apply w = .error reason := by
  cases f with
  | numeral bounds =>
    cases h with
    | text t =>
      simp only [Conversion.apply]
      split
      · exact .inl ⟨_, _, rfl, rfl, .int _⟩
      · exact .inr ⟨_, rfl, rfl⟩
    | _ => exact .inl ⟨_, _, rfl, rfl, .undefined⟩
  | reject reason => exact .inr ⟨reason, by cases h <;> rfl, by cases h <;> rfl⟩
  | accept => exact .inl ⟨v, w, by cases h <;> rfl, by cases h <;> rfl, h⟩
  | maxBytes limit =>
    cases h with
    | text t =>
      simp only [Conversion.apply]
      split
      · exact .inl ⟨_, _, rfl, rfl, .text t⟩
      · exact .inr ⟨_, rfl, rfl⟩
    | _ => exact .inl ⟨_, _, rfl, rfl, .undefined⟩

end

namespace Simulation

variable {S : Simulation} {α β γ δ : Type}

/-! ## Parsers of grammars -/

theorem convert {R : α → β → Prop} {P : γ → δ → Prop} {p : Parser α} {q : Parser β}
    {f : α → Except String γ} {g : β → Except String δ} (h : S.Parsers R p q)
    (hf : ∀ a b, R a b → (∃ x y, f a = .ok x ∧ g b = .ok y ∧ P x y) ∨
      ∃ reason, f a = .error reason ∧ g b = .error reason) :
    S.Parsers P (p.convert f) (q.convert g) := fun c d hc =>
  (h c d hc).bind fun u v huv => by
    rcases hf _ _ huv.1 with ⟨x, y, hx, hy, hxy⟩ | ⟨reason, hx, hy⟩
    · simp only [hx, hy]
      exact .ok ⟨hxy, huv.2⟩
    · simp only [hx, hy]
      exact .error (S.aborted hc reason)

theorem number : S.Parsers (· = ·) Parser.number Parser.number := fun c d hc =>
  (optional (literal "-") c d hc).bind fun u v huv => by
    obtain ⟨sign, c'⟩ := u
    obtain ⟨sign', d'⟩ := v
    obtain ⟨hs, hc'⟩ := huv
    have hsign : sign = sign' := by
      cases hs with
      | some h => rw [h]
      | none => rfl
    have hspan : S.Parsers (· = ·) (Parser.takeWhile1 isDigit) (Parser.takeWhile1 isDigit) :=
      refuseEmpty (takeWhile isDigit) fun a b h => by rw [h]
    refine (alt (.cons hspan .nil) (some "digit") c' d' hc').bind fun x y hxy => ?_
    obtain ⟨digits, c''⟩ := x
    obtain ⟨digits', d''⟩ := y
    obtain ⟨hd, hn⟩ := hxy
    simp only at hd hn
    subst hd hsign
    -- a number that is too large is reported where its digits start
    simp only
    split
    · exact .ok ⟨rfl, hn⟩
    · exact .error (fails hc' _)

theorem configures {config : Config} (h : S.node (.configure config) = true) :
    S.Parsers (fun _ _ => True) (Parser.configure config) (Parser.configure config) :=
  fun _ _ hc => .ok ⟨trivial, S.configure h hc⟩

theorem jumps {p : Nat} (h : S.node (.jump p) = true) :
    S.Parsers (fun _ _ => True) (Parser.jump p) (Parser.jump p) := fun _ _ hc =>
  (S.jump h hc).bind fun _ _ hn => .ok ⟨trivial, hn⟩

/-! ## Bodies -/

variable (S) in
/-- Scopes that are alike: in their cursors, and value by value. -/
structure Scopes (s t : Scope) : Prop where
  cursor : S.cursor s.cursor t.cursor
  pushed : List.Forall₂ S.Values s.pushed t.pushed

variable (S) in
/-- Bodies that ended alike, or the first with an error that is excused. -/
inductive Ends (R : α → β → Prop) : Outcome α × Scope → Outcome β × Scope → Prop
  | both {x : Outcome α} {y : Outcome β} {s t : Scope} : S.Outcomes R x y → S.Scopes s t →
      Ends R (x, s) (y, t)
  | excused {e : ParseError} {s : Scope} {y : Outcome β × Scope} : S.excused e →
      Ends R (.error e, s) y

variable (S) in
/-- Bodies that end alike from alike scopes. -/
def Bodies (R : α → β → Prop) (a : Body α) (b : Body β) : Prop :=
  ∀ s t, S.Scopes s t → S.Ends R (a s) (b t)

theorem Bodies.bind {R : α → β → Prop} {P : γ → δ → Prop} {a : Body α} {b : Body β}
    {k : α → Body γ} {l : β → Body δ} (h : S.Bodies R a b)
    (hk : ∀ x y, R x y → S.Bodies P (k x) (l y)) : S.Bodies P (a >>= k) (b >>= l) := by
  intro s t hs
  rw [Body.bind_apply, Body.bind_apply]
  have hab := h s t hs
  generalize a s = x at hab
  generalize b t = y at hab
  cases hab with
  | both ho hs =>
    cases ho with
    | ok hr => exact hk _ _ hr _ _ hs
    | error he => exact .both (.error he) hs
    | unfinished => exact .both .unfinished hs
    | excused he => exact .excused he
  | excused he => exact .excused he

theorem Bodies.pure {R : α → β → Prop} {x : α} {y : β} (h : R x y) :
    S.Bodies R (Pure.pure x) (Pure.pure y) := fun _ _ hs => .both (.ok h) hs

theorem Bodies.run {R : α → β → Prop} {p : Parser α} {q : Parser β} (h : S.Parsers R p q) :
    S.Bodies R (Body.run p) (Body.run q) := by
  intro s t hs
  unfold Body.run
  have hpq := h _ _ hs.cursor
  generalize p s.cursor = x at hpq
  generalize q t.cursor = y at hpq
  cases hpq with
  | ok hr => exact .both (.ok hr.1) ⟨hr.2, hs.pushed⟩
  | error he => exact .both (.error he) hs
  | unfinished => exact .both .unfinished hs
  | excused he => exact .excused he

theorem Bodies.peek {R : α → β → Prop} {p : Parser α} {q : Parser β} (h : S.Parsers R p q) :
    S.Bodies R (Body.peek p) (Body.peek q) := fun _ _ hs =>
  .both ((h _ _ hs.cursor).bind fun _ _ hr => .ok hr.1) hs

theorem Bodies.cursor : S.Bodies S.cursor Body.cursor Body.cursor := fun _ _ hs =>
  .both (.ok hs.cursor) hs

theorem Bodies.push {v w : Value} (h : S.Values v w) :
    S.Bodies (· = ·) (Body.push v) (Body.push w) := fun _ _ hs =>
  .both (.ok rfl) ⟨hs.cursor, List.rel_append hs.pushed (.cons h .nil)⟩

theorem Bodies.raise (reason : String) :
    S.Bodies (· = ·) (Body.raise (.aborted reason) : Body α) (Body.raise (.aborted reason)) :=
  fun _ _ hs => .both (.error (S.aborted hs.cursor reason)) hs

theorem Bodies.fail (expected : String) :
    S.Bodies (· = ·) (Body.fail expected : Body α) (Body.fail expected) := fun _ _ hs =>
  .both (.error (fails hs.cursor expected)) hs

variable (S) in
/-- Two catches that are alike: values, or errors. -/
inductive Caught (R : α → β → Prop) : Except ParseError α → Except ParseError β → Prop
  | ok {a : α} {b : β} : R a b → Caught R (.ok a) (.ok b)
  | error {e f : ParseError} : S.error e f → Caught R (.error e) (.error f)

/-- Where nothing is excused, errors may be caught. -/
theorem Bodies.catching {R : α → β → Prop} {a : Body α} {b : Body β} (h : S.Bodies R a b)
    (he : ∀ e, ¬ S.excused e) : S.Bodies (S.Caught R) (Body.catching a) (Body.catching b) := by
  intro s t hs
  unfold Body.catching
  have hab := h s t hs
  generalize a s = x at hab
  generalize b t = y at hab
  cases hab with
  | both ho hs =>
    cases ho with
    | ok hr => exact .both (.ok (.ok hr)) hs
    | error hf => exact .both (.ok (.error hf)) hs
    | unfinished => exact .both .unfinished hs
    | excused hx => exact absurd hx (he _)
  | excused hx => exact absurd hx (he _)

theorem Bodies.whileSome {R : α → β → Prop} {test : Body (Option α)} {test' : Body (Option β)}
    {turn turn' : Body Unit} (ht : S.Bodies (Option.Rel R) test test')
    (hb : S.Bodies (· = ·) turn turn') :
    ∀ n, S.Bodies (· = ·) (Body.whileSome n test turn) (Body.whileSome n test' turn')
  | 0 => fun _ _ hs => .both .unfinished hs
  | n + 1 => ht.bind fun _ _ hx => by
    cases hx with
    | some _ => exact hb.bind fun _ _ _ => whileSome ht hb n
    | none => exact .pure rfl

theorem Bodies.result (element : Option Nat) :
    S.Bodies S.Values (Body.result element) (Body.result element) := by
  intro s t hs
  cases element with
  | none => exact .both (.ok (.list hs.pushed)) hs
  | some i => exact .both (.ok (Value.Alike.getElem? hs.pushed i)) hs

theorem ofBody {R : α → β → Prop} {a : Body α} {b : Body β} (h : S.Bodies R a b) :
    S.Parsers R (Parser.ofBody a) (Parser.ofBody b) := by
  intro c d hc
  unfold Parser.ofBody
  have hab := h _ _ (⟨hc, .nil⟩ : S.Scopes (.enter c) (.enter d))
  generalize a (.enter c) = x at hab
  generalize b (.enter d) = y at hab
  cases hab with
  | both ho hs =>
    cases ho with
    | ok hr => exact .ok ⟨hr, hs.cursor⟩
    | error he => exact .error he
    | unfinished => exact .unfinished
    | excused he => exact .excused he
  | excused he => exact .excused he

/-! ## Meanings -/

variable (S) in
/-- A meaning under which the grammars and bodies that the simulation admits stay alike. -/
structure Meanings (m : Meaning) : Prop where
  parser : ∀ g : Grammar, g.all S.node S.step = true → S.Parsers S.Values (m.parser g) (m.parser g)
  body : ∀ steps, Step.allIn S.node S.step steps = true →
    S.Bodies (· = ·) (m.body steps) (m.body steps)

variable {m : Meaning}

theorem Meanings.parsers (hm : S.Meanings m) {gs : List Grammar}
    (h : Grammar.allIn S.node S.step gs = true) :
    List.Forall₂ (S.Parsers S.Values) (gs.map m.parser) (gs.map m.parser) := by
  rw [List.forall₂_map_left_iff, List.forall₂_map_right_iff, List.forall₂_same]
  exact fun g hg => hm.parser g (Grammar.all_of_mem h g hg)

theorem values_ofOption {a b : Option Value} (h : Option.Rel S.Values a b) :
    S.Values (Value.ofOption a) (Value.ofOption b) := by
  cases h with
  | some h => exact .some h
  | none => exact .none

theorem values_ofCursor {c d : Cursor} (h : S.cursor c d) :
    S.Values (Value.ofCursor c) (Value.ofCursor d) := by
  unfold Value.ofCursor
  rw [S.remaining_eq h, S.atEnd_eq h]
  exact .state _ _ (S.position_at h)

theorem step_layer (hm : S.Meanings m) (n : Nat) {s : Step} (hs : s.all S.node S.step = true) :
    S.Bodies (· = ·) (s.layer n m) (s.layer n m) := by
  have hstep := Step.all_step hs
  cases s with
  | run g =>
    simp only [Step.all, Bool.and_eq_true] at hs
    exact (Bodies.run (hm.parser g hs.2)).bind fun _ _ hv => .push hv
  | skip g =>
    simp only [Step.all, Bool.and_eq_true] at hs
    exact (Bodies.run (hm.parser g hs.2)).bind fun _ _ _ => .pure rfl
  | attempt g =>
    simp only [Step.all, Bool.and_eq_true] at hs
    -- a caught error becomes a value, so none may be excused here
    refine ((Bodies.run (hm.parser g hs.2)).catching (S.catching hstep)).bind fun _ _ hx => ?_
    cases hx with
    | ok hv => exact .push hv
    | error he => exact .push (.caught he)
  | peek g =>
    simp only [Step.all, Bool.and_eq_true] at hs
    exact (Bodies.peek (hm.parser g hs.2)).bind fun _ _ hv => .push hv
  | state => exact Bodies.cursor.bind fun _ _ hc => .push (values_ofCursor hc)
  | fail expected => exact .fail expected
  | requireEnd expected =>
    refine Bodies.cursor.bind fun c d hc => ?_
    rw [S.atEnd_eq hc]
    split
    · exact .pure rfl
    · exact .fail expected
  | abort reason => exact .raise reason
  | ifMatch g yes no =>
    simp only [Step.all, Bool.and_eq_true] at hs
    refine (Bodies.run (optional (hm.parser g hs.2.1))).bind fun _ _ hx => ?_
    cases hx with
    | some hv => exact (Bodies.push hv).bind fun _ _ _ => hm.body yes hs.2.2.1
    | none => exact hm.body no hs.2.2.2
  | whileMatch g steps =>
    simp only [Step.all, Bool.and_eq_true] at hs
    exact .whileSome (.run (optional (hm.parser g hs.2.1))) (hm.body steps hs.2.2) n

theorem step_sequence (hm : S.Meanings m) (n : Nat) : ∀ {steps : List Step},
    Step.allIn S.node S.step steps = true →
    S.Bodies (· = ·) (Step.sequence n m steps) (Step.sequence n m steps)
  | [], _ => .pure rfl
  | s :: steps, h => by
    simp only [Step.allIn, Bool.and_eq_true] at h
    exact (step_layer hm n h.1).bind fun _ _ _ => step_sequence hm n h.2

theorem grammar_layer {rules : Rules} (hr : rules.All S.node S.step) (hm : S.Meanings m) (n : Nat)
    {g : Grammar} (hg : g.all S.node S.step = true) :
    S.Parsers S.Values (g.layer rules n m) (g.layer rules n m) := by
  have hnode := Grammar.all_node hg
  cases g with
  | literal s => exact map (literal s) fun _ _ h => h ▸ .text _
  | takeWhile keep => exact map (takeWhile keep) fun _ _ h => h ▸ .text _
  | nonEmpty g =>
    simp only [Grammar.all, Bool.and_eq_true] at hg
    exact refuseEmpty (hm.parser g hg.2) fun _ _ h => h.isEmptyText_eq
  | char keep expected =>
    simp only [Grammar.layer]
    exact map (char keep expected) fun _ _ h => h ▸ .text _
  | endOfInput =>
    simp only [Grammar.layer]
    exact map endOfInput fun _ _ _ => .unit
  | number => exact map number fun _ _ h => h ▸ .int _
  | succeed s => exact succeed (.text _)
  | fail expected => exact fun _ _ hc => .error (fails hc expected)
  | failAt position expected kind limit => exact fun _ _ hc => .error (S.failAt hnode hc)
  | abort reason => exact fun _ _ hc => .error (S.aborted hc reason)
  | configure config =>
    simp only [Grammar.layer]
    exact map (configures hnode) fun _ _ _ => .unit
  | jump position =>
    simp only [Grammar.layer]
    exact map (jumps hnode) fun _ _ _ => .unit
  | and a b =>
    simp only [Grammar.all, Bool.and_eq_true] at hg
    exact map (and (hm.parser a hg.2.1) (hm.parser b hg.2.2)) fun _ _ h => .pair h.1 h.2
  | map g f =>
    simp only [Grammar.all, Bool.and_eq_true] at hg
    exact map (hm.parser g hg.2) fun _ _ h => f.apply_alike h
  | convert g f =>
    simp only [Grammar.all, Bool.and_eq_true] at hg
    exact convert (hm.parser g hg.2) fun _ _ h => f.apply_alike h
  | many g =>
    simp only [Grammar.all, Bool.and_eq_true] at hg
    exact map (many (hm.parser g hg.2) n) fun _ _ h => .list h
  | many1 g =>
    simp only [Grammar.all, Bool.and_eq_true] at hg
    exact map (many1 (hm.parser g hg.2) n) fun _ _ h => .list h
  | choice gs message =>
    simp only [Grammar.all, Bool.and_eq_true] at hg
    exact map (choice (hm.parsers hg.2) message) fun _ _ h => values_ofOption h
  | alt gs message =>
    simp only [Grammar.all, Bool.and_eq_true] at hg
    exact alt (hm.parsers hg.2) message
  | block steps result =>
    simp only [Grammar.all, Bool.and_eq_true] at hg
    exact ofBody ((hm.body steps hg.2).bind fun _ _ _ => .result result)
  | ref name =>
    -- the rule is not a part of the grammar, so its fragment is that of the rules
    intro c d hc
    simp only [Grammar.layer, Rules.parser]
    cases h : rules name with
    | some g => exact hm.parser g (hr name g h) c d hc
    | none => exact .unfinished

/-- Two runs that start alike stay alike, within every budget. -/
theorem run {rules : Rules} (hr : rules.All S.node S.step) : ∀ n, S.Meanings (meaning rules n)
  | 0 => ⟨fun _ _ _ _ _ => .unfinished, fun _ _ _ _ hs => .both .unfinished hs⟩
  | n + 1 =>
    have hm := run hr n
    ⟨fun _ hg => grammar_layer hr hm n hg, fun _ hs => step_sequence hm n hs⟩

end Simulation

end Backtrack
