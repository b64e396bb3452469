/-
A larger budget keeps every answer. Main statement: a run that returns within a budget comes to
the same within any larger one (`meaning_mono`), so that what a grammar means does not hang on
the budget, only how much of it is found out.

An outcome is at most another if it is the same or its computation did not return. Each way to
combine parsers and bodies keeps this order, and the layers of the meaning keep it in turn.
-/
import Backtrack.Grammar.Meaning

namespace Backtrack

/-! ## The order of outcomes -/

namespace Outcome

variable {α β : Type}

instance : LE (Outcome α) := ⟨fun x y => x = .unfinished ∨ x = y⟩

protected theorem le_refl (x : Outcome α) : x ≤ x := .inr rfl

theorem unfinished_le (y : Outcome α) : .unfinished ≤ y := .inl rfl

theorem bind_le_bind {x y : Outcome α} {k l : α → Outcome β} (h : x ≤ y) (hk : ∀ a, k a ≤ l a) :
    (x >>= k) ≤ (y >>= l) := by
  rcases h with rfl | rfl
  · exact unfinished_le _
  · cases x with
    | ok a => exact hk a
    | error e => exact .inr rfl
    | unfinished => exact .inl rfl

end Outcome

/-! ## Parsers -/

/-- A parser answers wherever another does, and in the same way. -/
def Parser.Le {α : Type} (p q : Parser α) : Prop := ∀ c, p c ≤ q c

namespace Parser

open Outcome

variable {α β : Type} {p q : Parser α}

protected theorem Le.refl (p : Parser α) : Le p p := fun c => Outcome.le_refl (p c)

theorem Le.map (h : Le p q) (f : α → β) : Le (p.map f) (q.map f) := fun c =>
  bind_le_bind (h c) fun _ => Outcome.le_refl _

theorem Le.convert (h : Le p q) (f : α → Except String β) : Le (p.convert f) (q.convert f) :=
  fun c => bind_le_bind (h c) fun _ => Outcome.le_refl _

theorem Le.and {r s : Parser β} (h : Le p q) (k : Le r s) : Le (p.and r) (q.and s) := fun c =>
  bind_le_bind (h c) fun a => bind_le_bind (k a.2) fun _ => Outcome.le_refl _

theorem Le.refuseEmpty (h : Le p q) (empty : α → Bool) :
    Le (refuseEmpty empty p) (refuseEmpty empty q) := fun c =>
  bind_le_bind (h c) fun _ => Outcome.le_refl _

/-- Two lists of parsers, one at most the other entry by entry. -/
inductive LeAll : List (Parser α) → List (Parser α) → Prop
  | nil : LeAll [] []
  | cons {p q : Parser α} {ps qs : List (Parser α)} : Le p q → LeAll ps qs → LeAll (p :: ps) (q :: qs)

theorem LeAll.map {ι : Type} {f g : ι → Parser α} (h : ∀ i, Le (f i) (g i)) :
    ∀ is : List ι, LeAll (is.map f) (is.map g)
  | [] => .nil
  | i :: is => .cons (h i) (LeAll.map h is)

theorem LeAll.attempts {ps qs : List (Parser α)} (h : LeAll ps qs) (c : Cursor) :
    attempts ps c ≤ attempts qs c := by
  induction h with
  | nil => exact Outcome.le_refl _
  | @cons p q ps qs hp _ ih =>
    unfold Parser.attempts
    rcases hp c with h | h
    · rw [h]; exact unfinished_le _
    · rw [h]
      split
      · exact Outcome.le_refl _
      · exact bind_le_bind ih fun _ => Outcome.le_refl _
      · exact Outcome.le_refl _
      · exact Outcome.le_refl _

theorem LeAll.choice {ps qs : List (Parser α)} (h : LeAll ps qs) (message : Option String) :
    Le (choice ps message) (choice qs message) := fun c =>
  bind_le_bind (h.attempts c) fun _ => Outcome.le_refl _

theorem LeAll.alt {ps qs : List (Parser α)} (h : LeAll ps qs) (message : Option String) :
    Le (alt ps message) (alt qs message) := fun c =>
  bind_le_bind (h.attempts c) fun _ => Outcome.le_refl _

theorem Le.optional (h : Le p q) : Le (optional p) (optional q) := (LeAll.cons h .nil).choice none

theorem iterate_le_iterate (h : Le p q) :
    ∀ {m n : Nat}, m ≤ n → ∀ c, iterate m p c ≤ iterate n q c
  | 0, _, _, _ => unfinished_le _
  | m + 1, n + 1, hmn, c => by
    unfold iterate
    rcases h c with hp | hp
    · rw [hp]; exact unfinished_le _
    · rw [hp]
      split
      · split
        · exact Outcome.le_refl _
        · exact bind_le_bind (iterate_le_iterate h (Nat.le_of_succ_le_succ hmn) _)
            fun _ => Outcome.le_refl _
      all_goals exact Outcome.le_refl _

theorem Le.many {m n : Nat} (h : Le p q) (hmn : m ≤ n) : Le (many m p) (many n q) := fun c =>
  bind_le_bind (iterate_le_iterate h hmn c) fun _ => Outcome.le_refl _

theorem Le.many1 {m n : Nat} (h : Le p q) (hmn : m ≤ n) : Le (many1 m p) (many1 n q) := fun c =>
  bind_le_bind (iterate_le_iterate h hmn c) fun _ => Outcome.le_refl _

end Parser

/-! ## Bodies -/

/-- A body returns wherever another does, to the same outcome and the same scope. -/
def Body.Le {α : Type} (a b : Body α) : Prop := ∀ s, (a s).1 = .unfinished ∨ a s = b s

namespace Body

variable {α β : Type} {a b : Body α}

protected theorem Le.refl (a : Body α) : Le a a := fun _ => .inr rfl

theorem Le.bind {k l : α → Body β} (h : Le a b) (hk : ∀ x, Le (k x) (l x)) :
    Le (a >>= k) (b >>= l) := fun s => by
  rw [bind_apply, bind_apply]
  rcases h s with h | h
  · -- the first body does not return, and so the sequence does not either
    rcases ha : a s with ⟨_ | _ | _, s'⟩ <;> rw [ha] at h <;> simp_all
  · rw [← h]
    split
    · exact hk _ _
    · exact .inr rfl
    · exact .inl rfl

theorem Le.run {p q : Parser α} (h : Parser.Le p q) : Le (run p) (run q) := fun s => by
  unfold Body.run
  rcases h s.cursor with h | h
  · rw [h]; exact .inl rfl
  · rw [h]; exact .inr rfl

theorem Le.peek {p q : Parser α} (h : Parser.Le p q) : Le (peek p) (peek q) := fun s => by
  unfold Body.peek
  rcases h s.cursor with h | h
  · rw [h]; exact .inl rfl
  · rw [h]; exact .inr rfl

theorem Le.catching (h : Le a b) : Le (catching a) (catching b) := fun s => by
  unfold Body.catching
  rcases h s with h | h
  · rcases ha : a s with ⟨_ | _ | _, s'⟩ <;> rw [ha] at h <;> simp_all
  · rw [h]; exact .inr rfl

theorem Le.whileSome {test test' : Body (Option α)} {body body' : Body Unit}
    (ht : Le test test') (hb : Le body body') :
    ∀ {m n : Nat}, m ≤ n → Le (whileSome m test body) (whileSome n test' body')
  | 0, _, _ => fun _ => .inl rfl
  | _ + 1, _ + 1, hmn => ht.bind fun
    | some _ => hb.bind fun _ => Le.whileSome ht hb (Nat.le_of_succ_le_succ hmn)
    | none => Le.refl _

theorem Le.ofBody (h : Le a b) : Parser.Le (Parser.ofBody a) (Parser.ofBody b) := fun c => by
  unfold Parser.ofBody
  rcases h (Scope.enter c) with h | h
  · rcases ha : a (Scope.enter c) with ⟨_ | _ | _, s'⟩ <;> rw [ha] at h <;> simp at h
    exact Outcome.unfinished_le _
  · rw [h]; exact Outcome.le_refl _

end Body

/-! ## Meanings -/

/-- A meaning answers wherever another does, and in the same way. -/
structure Meaning.Le (a b : Meaning) : Prop where
  parser : ∀ g, Parser.Le (a.parser g) (b.parser g)
  body : ∀ steps, Body.Le (a.body steps) (b.body steps)

theorem Step.layer_mono {m n : Nat} {a b : Meaning} (hmn : m ≤ n) (h : a.Le b) (step : Step) :
    Body.Le (step.layer m a) (step.layer n b) := by
  cases step with
  | run g => exact (Body.Le.run (h.parser g)).bind fun _ => .refl _
  | skip g => exact (Body.Le.run (h.parser g)).bind fun _ => .refl _
  | attempt g => exact (Body.Le.run (h.parser g)).catching.bind fun _ => .refl _
  | peek g => exact (Body.Le.peek (h.parser g)).bind fun _ => .refl _
  | state => exact .refl _
  | fail expected => exact .refl _
  | requireEnd expected => exact .refl _
  | abort reason => exact .refl _
  | ifMatch g yes no =>
    refine (Body.Le.run (h.parser g).optional).bind fun
      | some v => (Body.Le.refl _).bind fun _ => h.body yes
      | none => h.body no
  | whileMatch g steps =>
    exact Body.Le.whileSome (Body.Le.run (h.parser g).optional) (h.body steps) hmn

theorem Step.sequence_mono {m n : Nat} {a b : Meaning} (hmn : m ≤ n) (h : a.Le b) :
    ∀ steps, Body.Le (Step.sequence m a steps) (Step.sequence n b steps) := by
  intro steps
  induction steps with
  | nil => exact .refl _
  | cons step steps ih => exact (step.layer_mono hmn h).bind fun _ => ih

theorem Rules.parser_mono {a b : Meaning} (rules : Rules) (h : a.Le b) (name : String) :
    Parser.Le (rules.parser a name) (rules.parser b name) := by
  unfold Rules.parser
  split
  · exact h.parser _
  · exact .refl _

theorem Grammar.layer_mono {rules : Rules} {m n : Nat} {a b : Meaning} (hmn : m ≤ n) (h : a.Le b)
    (g : Grammar) : Parser.Le (g.layer rules m a) (g.layer rules n b) := by
  cases g with
  | nonEmpty g => exact (h.parser g).refuseEmpty _
  | and f g => exact ((h.parser f).and (h.parser g)).map _
  | map g f => exact (h.parser g).map _
  | convert g f => exact (h.parser g).convert _
  | many g => exact ((h.parser g).many hmn).map _
  | many1 g => exact ((h.parser g).many1 hmn).map _
  | choice gs message => exact ((Parser.LeAll.map h.parser gs).choice message).map _
  | alt gs message => exact (Parser.LeAll.map h.parser gs).alt message
  | block steps result => exact ((h.body steps).bind fun _ => .refl _).ofBody
  | ref name => exact rules.parser_mono h name
  | _ => exact .refl _

/-- A run that returns within a budget comes to the same within any larger one. -/
theorem meaning_mono (rules : Rules) : ∀ {m n : Nat}, m ≤ n → (meaning rules m).Le (meaning rules n)
  | 0, _, _ => ⟨fun _ _ => .inl rfl, fun _ _ => .inl rfl⟩
  | _ + 1, _ + 1, hmn =>
    have ih := meaning_mono rules (Nat.le_of_succ_le_succ hmn)
    ⟨Grammar.layer_mono (Nat.le_of_succ_le_succ hmn) ih,
      Step.sequence_mono (Nat.le_of_succ_le_succ hmn) ih⟩

end Backtrack
