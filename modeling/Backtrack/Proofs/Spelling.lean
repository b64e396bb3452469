/-
Nothing that is read gets lost. The texts of a value, put together from left to right, spell the
value. Main statement: a grammar that drops no value and changes none gives a value that spells
exactly the part of the text between where the run started and where it ended
(`spelling_eq_between`), whatever was tried and given back in between.

The invariant of a body is that what was read since its start is spelled by the values that are put
aside and by the one in hand.
-/
import Backtrack.Grammar.Meaning
import Backtrack.Proofs.Fragment

namespace Backtrack

/-! ## Spelling -/

mutual

/-- The texts of a value, put together from left to right. -/
def Value.spelling : Value → Text
  | .text t => t
  | .some v | .tagged _ v => v.spelling
  | .pair a b => a.spelling ++ b.spelling
  | .list vs => Value.spellings vs
  | .state _ remaining _ => remaining
  | .unit | .bool _ | .int _ | .none | .caught _ | .undefined => []

/-- The texts of all values of a list. -/
def Value.spellings : List Value → Text
  | [] => []
  | v :: vs => v.spelling ++ Value.spellings vs

end

theorem Value.spellings_eq_flatMap (vs : List Value) :
    Value.spellings vs = vs.flatMap Value.spelling := by
  induction vs with
  | nil => rfl
  | cons v vs ih => rw [Value.spellings, List.flatMap_cons, ih]

theorem Value.spellings_push (vs : List Value) (v : Value) :
    Value.spellings (vs ++ [v]) = Value.spellings vs ++ v.spelling := by
  simp [Value.spellings_eq_flatMap]

/-- What an optional value spells: nothing if there is none. -/
def spellingOfOption {α : Type} (spell : α → Text) : Option α → Text
  | some a => spell a
  | none => []

/-! ## Reading -/

/-- The text between two byte positions, if it can be cut at both. -/
def Text.between? (t : Text) (p q : Nat) : Option Text := (t.before? q).bind fun s => s.after? p

/-- A cursor comes to another one by passing a text. -/
structure Cursor.Reads (c : Cursor) (t : Text) (d : Cursor) : Prop where
  source : d.source = c.source
  position : d.position = c.position + t.size
  remaining : c.remaining = t ++ d.remaining

namespace Cursor.Reads

variable {c d e : Cursor} {t u : Text}

theorem refl (c : Cursor) : c.Reads [] c := ⟨rfl, rfl, rfl⟩

theorem trans (h : c.Reads t d) (k : d.Reads u e) : c.Reads (t ++ u) e where
  source := k.source.trans h.source
  position := by rw [k.position, h.position, Text.size_append, Nat.add_assoc]
  remaining := by rw [h.remaining, k.remaining, List.append_assoc]

theorem isValid (h : c.Reads t d) (hc : c.IsValid) : d.IsValid := by
  unfold Cursor.IsValid
  rw [h.source, h.position]
  exact (hc.advance h.remaining).1

theorem advance (hc : c.IsValid) {r : Text} (h : c.remaining = t ++ r) :
    c.Reads t (c.advance t.size) := by
  refine ⟨rfl, rfl, ?_⟩
  rw [(hc.advance h).2, h]

theorem between? (h : c.Reads t d) (hc : c.IsValid) :
    c.source.between? c.position d.position = some t := by
  obtain ⟨s, hs, hp⟩ := hc.exists_split
  have hsource : c.source = (s ++ t) ++ d.remaining := by
    rw [List.append_assoc, ← h.remaining]
    exact hs
  -- the text passed so far is a front of the source, cut where the cursor stands
  have hbefore : c.source.before? d.position = some (s ++ t) := by
    rw [hsource, h.position, ← hp, ← Text.size_append, Text.before?_append_size]
  rw [Text.between?, hbefore, Option.bind_some, ← hp, Text.after?_append_size]

end Cursor.Reads

/-! ## Parsers that spell what they read -/

/-- Where the parser succeeds, it has read what its value spells. -/
def Parser.Spells {α : Type} (spell : α → Text) (p : Parser α) : Prop :=
  ∀ c a d, c.IsValid → p c = .ok (a, d) → c.Reads (spell a) d

namespace Parser

variable {α β : Type} {spell : α → Text} {p : Parser α}

theorem spells_literal (s : String) : Spells id (literal s) := by
  intro c a d hc h
  unfold literal at h
  split at h
  · next hp =>
    cases h
    obtain ⟨r, hr⟩ := List.isPrefixOf_iff_prefix.1 hp
    exact .advance hc hr.symm
  · cases h

theorem spells_takeWhile (keep : Char → Bool) : Spells id (takeWhile keep) := by
  intro c a d hc h
  rw [takeWhile_eq] at h
  cases h
  exact .advance hc List.takeWhile_append_dropWhile.symm

theorem spells_char (keep : Char → Bool) (expected : String) :
    Spells (fun ch => [ch]) (char keep expected) := by
  intro c a d hc h
  unfold char at h
  split at h
  · next ch hch =>
    split at h
    · cases h
      obtain ⟨r, hr⟩ := List.head?_eq_some_iff.1 hch
      unfold Cursor.next
      rw [hch]
      exact .advance (t := [a]) hc hr
    · cases h
  · cases h

theorem spells_endOfInput : Spells (fun _ => []) endOfInput := by
  intro c a d _ h
  unfold endOfInput at h
  split at h
  · cases h
    exact .refl c
  · cases h

theorem spells_configure (config : Config) : Spells (fun _ => []) (configure config) := by
  intro c a d _ h
  cases h
  exact ⟨rfl, rfl, rfl⟩

theorem spells_fail (expected : String) : Spells spell (fail expected) := by
  intro c a d _ h
  cases h

theorem spells_raise (e : ParseError) : Spells spell (raise e) := by
  intro c a d _ h
  cases h

theorem spells_failAt (position : Nat) (expected : String) (kind : FailureKind)
    (limit : Option Nat) : Spells spell (failAt position expected kind limit) := by
  intro c a d _ h
  cases h

theorem Spells.map (hp : Spells spell p) {f : α → β} {spell' : β → Text}
    (hf : ∀ a, spell' (f a) = spell a) : Spells spell' (p.map f) := by
  intro c b d hc h
  obtain ⟨⟨a, d'⟩, ha, h⟩ := Outcome.bind_eq_ok_iff.1 h
  cases h
  rw [hf]
  exact hp c a d hc ha

theorem Spells.and (hp : Spells spell p) {q : Parser β} {spell' : β → Text}
    (hq : Spells spell' q) : Spells (fun x => spell x.1 ++ spell' x.2) (p.and q) := by
  intro c x d hc h
  obtain ⟨⟨a, d'⟩, ha, h⟩ := Outcome.bind_eq_ok_iff.1 h
  obtain ⟨⟨b, e⟩, hb, h⟩ := Outcome.bind_eq_ok_iff.1 h
  cases h
  have hread := hp c a d' hc ha
  exact hread.trans (hq d' b d (hread.isValid hc) hb)

theorem Spells.refuseEmpty (hp : Spells spell p) (empty : α → Bool) :
    Spells spell (refuseEmpty empty p) := by
  intro c a d hc h
  obtain ⟨⟨a', d'⟩, ha, h⟩ := Outcome.bind_eq_ok_iff.1 h
  simp only at h
  split at h
  · cases h
  · cases h
    exact hp c a d hc ha

/-- A choice reads what its match read, from its own start, and nothing of what failed before. -/
theorem spells_choice {ps : List (Parser α)} (h : ∀ p ∈ ps, Spells spell p)
    (message : Option String) : Spells (spellingOfOption spell) (choice ps message) := by
  intro c a d hc hrun
  obtain ⟨x, hx, hrun⟩ := Outcome.bind_eq_ok_iff.1 hrun
  cases x with
  | matched v next =>
    cases hrun
    obtain ⟨p, hp, hpc⟩ := exists_of_attempts_matched hx
    exact h p hp c v d hc hpc
  | missed fs =>
    simp only at hrun
    split at hrun
    · cases hrun
    · cases hrun
      exact .refl c

theorem spells_alt {ps : List (Parser α)} (h : ∀ p ∈ ps, Spells spell p)
    (message : Option String) : Spells spell (alt ps message) := by
  intro c a d hc hrun
  obtain ⟨x, hx, hrun⟩ := Outcome.bind_eq_ok_iff.1 hrun
  cases x with
  | matched v next =>
    cases hrun
    obtain ⟨p, hp, hpc⟩ := exists_of_attempts_matched hx
    exact h p hp c a d hc hpc
  | missed fs =>
    simp only at hrun
    split at hrun
    · cases hrun
    · cases fs <;> cases hrun

/-- A repetition stops where its last value was read, so neither the attempt that failed nor the
iteration that stood still has read anything. -/
theorem Spells.iterate (hp : Spells spell p) : ∀ (n : Nat) {c : Cursor} {r : Repetition α},
    c.IsValid → iterate n p c = .ok r → c.Reads (r.values.flatMap spell) r.cursor
  | 0, _, _, _, h => by cases h
  | n + 1, c, r, hc, h => by
    cases hx : p c with
    | ok x =>
      obtain ⟨a, d⟩ := x
      by_cases hd : d.position = c.position
      · cases hi : c.config.idle with
        | fail =>
          rw [iterate_succ_idle_fail n hx hd hi] at h
          cases h
        | stop =>
          rw [iterate_succ_idle_stop n hx hd hi] at h
          cases h
          exact .refl c
      · rw [iterate_succ_moved n hx hd] at h
        obtain ⟨rest, hrest, h⟩ := Outcome.bind_eq_ok_iff.1 h
        cases h
        have hread := hp c a d hc hx
        exact hread.trans (hp.iterate n (hread.isValid hc) hrest)
    | error e =>
      cases e with
      | failure f =>
        rw [iterate_succ_failure n hx] at h
        cases h
        exact .refl c
      | _ =>
        rw [iterate_succ_fatal n hx rfl] at h
        cases h
    | unfinished =>
      rw [iterate_succ_unfinished n hx] at h
      cases h

theorem Spells.many (hp : Spells spell p) (n : Nat) :
    Spells (List.flatMap spell) (many n p) := by
  intro c vs d hc h
  obtain ⟨r, hr, h⟩ := Outcome.bind_eq_ok_iff.1 h
  cases h
  exact hp.iterate n hc hr

theorem Spells.many1 (hp : Spells spell p) (n : Nat) :
    Spells (List.flatMap spell) (many1 n p) := by
  intro c vs d hc h
  obtain ⟨r, hr, h⟩ := Outcome.bind_eq_ok_iff.1 h
  split at h
  · cases h
  · cases h
    exact hp.iterate n hc hr

end Parser

/-! ## Bodies -/

/-- What was read since a cursor is spelled by the values put aside and by a text in hand. -/
def Scope.Holds (c : Cursor) (hand : Text) (s : Scope) : Prop :=
  c.Reads (Value.spellings s.pushed ++ hand) s.cursor

/-- A body that starts with a text in hand and ends with another one loses nothing. -/
def Body.Keeps {α : Type} (before : Text) (b : Body α) (after : α → Text) : Prop :=
  ∀ c s a t, c.IsValid → s.Holds c before → b s = (.ok a, t) → t.Holds c (after a)

namespace Body

variable {α β : Type} {t : Text} {b : Body α} {after : α → Text}

theorem Keeps.bind (hb : b.Keeps t after) {k : α → Body β} {after' : β → Text}
    (hk : ∀ a, (k a).Keeps (after a) after') : (b >>= k).Keeps t after' := by
  intro c s v u hc hs h
  obtain ⟨a, m, ha, h⟩ := Body.bind_eq_ok_iff.1 h
  exact hk a c m v u hc (hb c s a m hc hs ha) h

theorem keeps_pure (a : α) : (pure a : Body α).Keeps t fun _ => t := by
  intro c s _ u _ hs h
  cases h
  exact hs

theorem keeps_raise (e : ParseError) : (raise e : Body α).Keeps t after := by
  intro c s a u _ _ h
  cases h

theorem keeps_fail (expected : String) : (fail expected : Body α).Keeps t after := by
  intro c s a u _ _ h
  cases h

theorem keeps_cursor : cursor.Keeps t fun _ => t := by
  intro c s a u _ hs h
  cases h
  exact hs

theorem keeps_push (v : Value) : (push v).Keeps v.spelling fun _ => [] := by
  intro c s a u _ hs h
  cases h
  unfold Scope.Holds
  -- the text in hand is the one that the new value spells
  rw [Value.spellings_push, List.append_nil]
  exact hs

theorem keeps_run {spell : α → Text} {p : Parser α} (hp : p.Spells spell) :
    (run p).Keeps [] spell := by
  intro c s a u hc hs h
  unfold Scope.Holds at hs
  rw [List.append_nil] at hs
  unfold run at h
  cases hx : p s.cursor with
  | ok r =>
    rw [hx] at h
    cases h
    exact hs.trans (hp _ _ _ (hs.isValid hc) hx)
  | _ => rw [hx] at h; cases h

end Body

/-- What a body read is what its values spell. -/
theorem spells_ofBody {b : Body Unit} (hb : b.Keeps [] fun _ => []) :
    (Parser.ofBody do b; Body.result none).Spells Value.spelling := by
  intro c v d hc h
  unfold Parser.ofBody at h
  split at h
  · next v' s hs =>
    cases h
    obtain ⟨_, t, hb', hr⟩ := Body.bind_eq_ok_iff.1 hs
    cases hr
    -- a scope starts with no values and with nothing in hand
    have hstart : (Scope.enter c).Holds c [] := Cursor.Reads.refl c
    have hend := hb c _ _ _ hc hstart hb'
    unfold Scope.Holds at hend
    rwa [List.append_nil] at hend
  · cases h
  · cases h

/-! ## Meanings -/

/-- The grammar itself neither drops the text that it reads nor changes it, nor does it make one
up. Reading a numeral gives no text, and a body may give one of its values only. -/
def Grammar.keepsText : Grammar → Bool
  | .number | .succeed _ | .jump _ | .map .. | .convert .. | .block _ (some _) => false
  | _ => true

/-- The step neither drops what it reads nor pushes what it does not read. -/
def Step.keepsText : Step → Bool
  | .skip _ | .attempt _ | .peek _ | .state | .whileMatch .. => false
  | _ => true

/-- A meaning under which what a grammar reads is what its value spells. -/
structure Meaning.Spells (m : Meaning) : Prop where
  parser : ∀ g : Grammar, g.all Grammar.keepsText Step.keepsText = true →
    (m.parser g).Spells Value.spelling
  body : ∀ steps, Step.allIn Grammar.keepsText Step.keepsText steps = true →
    (m.body steps).Keeps [] fun _ => []

section

variable {m : Meaning}

theorem Step.layer_keeps (hm : m.Spells) (n : Nat) {x : Step}
    (hx : x.all Grammar.keepsText Step.keepsText = true) : (x.layer n m).Keeps [] fun _ => [] := by
  have hstep := Step.all_step hx
  cases x with
  | run g =>
    simp only [Step.all, Bool.and_eq_true] at hx
    exact (Body.keeps_run (hm.parser g hx.2)).bind Body.keeps_push
  | fail expected => exact Body.keeps_fail expected
  | requireEnd expected =>
    refine Body.keeps_cursor.bind fun c => ?_
    split
    · exact Body.keeps_pure ()
    · exact Body.keeps_fail expected
  | abort reason => exact Body.keeps_raise _
  | ifMatch g yes no =>
    simp only [Step.all, Bool.and_eq_true] at hx
    obtain ⟨-, hg, hyes, hno⟩ := hx
    -- a test that finds nothing has read nothing
    have htest : (Parser.optional (m.parser g)).Spells (spellingOfOption Value.spelling) :=
      Parser.spells_choice (by simpa using hm.parser g hg) none
    refine (Body.keeps_run htest).bind fun found => ?_
    cases found with
    | some v => exact (Body.keeps_push v).bind fun _ => hm.body yes hyes
    | none => exact hm.body no hno
  | _ => cases hstep

theorem Step.sequence_keeps (hm : m.Spells) (n : Nat) : ∀ {steps : List Step},
    Step.allIn Grammar.keepsText Step.keepsText steps = true →
    (Step.sequence n m steps).Keeps [] fun _ => []
  | [], _ => Body.keeps_pure ()
  | x :: steps, h => by
    simp only [Step.allIn, Bool.and_eq_true] at h
    exact (Step.layer_keeps hm n h.1).bind fun _ => Step.sequence_keeps hm n h.2

theorem Meaning.Spells.parsers (hm : m.Spells) {gs : List Grammar}
    (h : Grammar.allIn Grammar.keepsText Step.keepsText gs = true) :
    ∀ p ∈ gs.map m.parser, Parser.Spells Value.spelling p := by
  intro p hp
  obtain ⟨g, hg, rfl⟩ := List.mem_map.1 hp
  exact hm.parser g (Grammar.all_of_mem h g hg)

theorem Grammar.layer_spells {rules : Rules} (hr : rules.All Grammar.keepsText Step.keepsText)
    (hm : m.Spells) (n : Nat) {g : Grammar}
    (hg : g.all Grammar.keepsText Step.keepsText = true) :
    (g.layer rules n m).Spells Value.spelling := by
  have hnode := Grammar.all_node hg
  cases g with
  | literal s => exact (Parser.spells_literal s).map fun _ => rfl
  | takeWhile keep => exact (Parser.spells_takeWhile keep).map fun _ => rfl
  | nonEmpty g =>
    simp only [Grammar.all, Bool.and_eq_true] at hg
    exact (hm.parser g hg.2).refuseEmpty _
  | char keep expected =>
    simp only [Grammar.layer]
    exact (Parser.spells_char keep expected).map fun _ => rfl
  | endOfInput =>
    simp only [Grammar.layer]
    exact Parser.spells_endOfInput.map fun _ => rfl
  | fail expected => exact Parser.spells_fail expected
  | failAt position expected kind limit => exact Parser.spells_failAt position expected kind limit
  | abort reason => exact Parser.spells_raise _
  | configure config =>
    simp only [Grammar.layer]
    exact (Parser.spells_configure config).map fun _ => rfl
  | and a b =>
    simp only [Grammar.all, Bool.and_eq_true] at hg
    exact ((hm.parser a hg.2.1).and (hm.parser b hg.2.2)).map fun _ => rfl
  | many g =>
    simp only [Grammar.all, Bool.and_eq_true] at hg
    exact ((hm.parser g hg.2).many n).map Value.spellings_eq_flatMap
  | many1 g =>
    simp only [Grammar.all, Bool.and_eq_true] at hg
    exact ((hm.parser g hg.2).many1 n).map Value.spellings_eq_flatMap
  | choice gs message =>
    simp only [Grammar.all, Bool.and_eq_true] at hg
    refine (Parser.spells_choice (hm.parsers hg.2) message).map fun v => ?_
    cases v <;> rfl
  | alt gs message =>
    simp only [Grammar.all, Bool.and_eq_true] at hg
    exact Parser.spells_alt (hm.parsers hg.2) message
  | block steps result =>
    simp only [Grammar.all, Bool.and_eq_true] at hg
    cases result with
    | none => exact spells_ofBody (hm.body steps hg.2)
    | some i => cases hnode
  | ref name =>
    intro c v d hc h
    simp only [Grammar.layer, Rules.parser] at h
    cases hn : rules name with
    | some g =>
      rw [hn] at h
      exact hm.parser g (hr name g hn) c v d hc h
    | none =>
      rw [hn] at h
      cases h
  | _ => cases hnode

end

theorem meaning_spells {rules : Rules} (hr : rules.All Grammar.keepsText Step.keepsText) :
    ∀ n, (meaning rules n).Spells
  | 0 => by
    constructor
    · intro g _ c v d _ h
      cases h
    · intro steps _ c s a t _ _ h
      cases h
  | n + 1 =>
    have hm := meaning_spells hr n
    ⟨fun _ hg => Grammar.layer_spells hr hm n hg, fun _ h => Step.sequence_keeps hm n h⟩

/-- Where a run succeeds, its value spells the text from where it started to where it ended. -/
theorem spelling_eq_between {rules : Rules} {g : Grammar}
    (hr : rules.All Grammar.keepsText Step.keepsText)
    (hg : g.all Grammar.keepsText Step.keepsText = true) {c d : Cursor} (hc : c.IsValid) {n : Nat}
    {v : Value} (h : (meaning rules n).parser g c = .ok (v, d)) :
    d.source = c.source ∧ c.source.between? c.position d.position = some v.spelling := by
  have hread := (meaning_spells hr n).parser g hg c v d hc h
  exact ⟨hread.source, hread.between? hc⟩

/-- Items in angle brackets, or letters, of which there may be none. -/
def item : Grammar :=
  .alt [.and (.literal "<") (.and (.many (.ref "item")) (.literal ">")), .takeWhile Char.isAlpha]
    none

/-- Items, each with a semicolon behind it or without. -/
def items : Grammar := .many (.block [.run (.ref "item"), .ifMatch (.literal ";") [] []] none)

/-- The bracket that is not closed is given back, and so is the iteration without a letter. -/
theorem spelling_eq_between_items :
    Rules.All Grammar.keepsText Step.keepsText (fun _ => some item) ∧
      items.all Grammar.keepsText Step.keepsText = true ∧
      Cursor.IsValid ⟨"é<a>b;c<d".toList, 2, ⟨.stop, none⟩⟩ ∧
      ∃ v d, (meaning (fun _ => some item) 12).parser items
          ⟨"é<a>b;c<d".toList, 2, ⟨.stop, none⟩⟩ = .ok (v, d) ∧
        d.position = 8 ∧ v.spelling = "<a>b;c".toList := by
  have hr : Rules.All Grammar.keepsText Step.keepsText (fun _ => some item) := by
    intro name g h
    cases h
    rfl
  have hg : items.all Grammar.keepsText Step.keepsText = true := rfl
  have hc : Cursor.IsValid ⟨"é<a>b;c<d".toList, 2, ⟨.stop, none⟩⟩ := by decide
  obtain ⟨r, hrun⟩ : ∃ r, (meaning (fun _ => some item) 12).parser items
    ⟨"é<a>b;c<d".toList, 2, ⟨.stop, none⟩⟩ = .ok r := ⟨_, rfl⟩
  have hend : r.2.position = 8 := by cases hrun; rfl
  obtain ⟨-, hspell⟩ := spelling_eq_between hr hg hc hrun
  rw [hend] at hspell
  exact ⟨hr, hg, hc, r.1, r.2, hrun, hend, (Option.some.inj hspell).symm⟩

end Backtrack
