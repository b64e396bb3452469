/-
What a grammar makes of a text in front of it, given what follows. A grammar reads a text if from
wherever the text stands, with that behind it, it comes to a value and to the cursor behind the text;
it refuses a text if it fails there. What a combination of grammars or a body of steps reads follows
from what its parts do (`Grammar.Reads.alt`, `Step.AllRead.cons`, `Grammar.reads_block`), so that a
grammar is followed through a text without a word about cursors, scopes or budgets. Reading says that
the run returns, and what.
-/
import Backtrack.Proofs.Alternatives
import Backtrack.Proofs.Settling

namespace Backtrack

/-! ## A place in front of a text -/

/-- The cursor behind a text. -/
def Cursor.past (c : Cursor) (t : Text) : Cursor := c.advance t.size

/-- The cursor stands at a boundary, and this is what remains there. -/
structure Cursor.Before (c : Cursor) (t : Text) : Prop where
  valid : c.IsValid
  remaining : c.remaining = t

@[simp] theorem Cursor.past_nil (c : Cursor) : c.past [] = c := rfl

theorem Cursor.past_past (c : Cursor) (s t : Text) : (c.past s).past t = c.past (s ++ t) := by
  simp [Cursor.past, Cursor.advance, Nat.add_assoc]

theorem Cursor.Before.past {c : Cursor} {t rest : Text} (h : c.Before (t ++ rest)) :
    (c.past t).Before rest :=
  have hpast := h.valid.advance h.remaining
  ⟨hpast.1, hpast.2⟩

theorem Cursor.Before.beginning (t : Text) (config : Config) : Cursor.Before ⟨t, 0, config⟩ t :=
  ⟨⟨[], t, rfl, rfl⟩, Cursor.remaining_of_split (s := []) rfl rfl⟩

/-! ## Parsers -/

namespace Parser

variable {α : Type}

/-- The parser reads a text and gives a value wherever the text is followed by another one. -/
def Reads (p : Parser α) (t : Text) (a : α) (rest : Text) : Prop :=
  ∀ c : Cursor, c.Before (t ++ rest) → p c = .ok (a, c.past t)

/-- The parser fails wherever a text is in front of it. -/
def Refuses (p : Parser α) (rest : Text) : Prop :=
  ∀ c : Cursor, c.Before rest → ∃ f, p c = .error (.failure f)

variable {p : Parser α} {t rest : Text} {a : α}

theorem reads_literal (s : String) (rest : Text) : (literal s).Reads s.toList s.toList rest := by
  intro c hc
  have hprefix : s.toList.isPrefixOf c.remaining = true := by
    rw [hc.remaining]
    exact List.isPrefixOf_iff_prefix.2 (List.prefix_append _ _)
  rw [literal, if_pos hprefix]
  rfl

theorem refuses_literal {s : String} (h : s.toList.isPrefixOf rest = false) :
    (literal s).Refuses rest := by
  intro c hc
  refine ⟨c.failure ("\"" ++ s ++ "\""), ?_⟩
  rw [literal, hc.remaining, h]
  rfl

theorem reads_takeWhile {keep : Char → Bool} (ht : ∀ ch ∈ t, keep ch = true)
    (hrest : rest.opensWith keep = false) : (takeWhile keep).Reads t t rest := by
  intro c hc
  rw [takeWhile, scan_of_longestFront ⟨hc.remaining, ht, hrest⟩]
  rfl

theorem optional_of_ok {c d : Cursor} (h : p c = .ok (a, d)) : optional p c = .ok (some a, d) := by
  rw [optional, choice, attempts_cons_ok h]
  rfl

theorem alt_of_ok {ps : List (Parser α)} {message : Option String} {c d : Cursor}
    (h : p c = .ok (a, d)) : alt (p :: ps) message c = .ok (a, d) := by
  rw [alt, attempts_cons_ok h]
  rfl

theorem optional_of_failure {c : Cursor} {f : Failure} (h : p c = .error (.failure f)) :
    optional p c = .ok (none, c) := by
  rw [optional, choice, attempts_cons_failure h]
  rfl

theorem optional_of_fatal {c : Cursor} {e : ParseError} (h : p c = .error e)
    (he : e.isRecoverable = false) : optional p c = .error e := by
  rw [optional, choice, attempts_cons_fatal h he]
  rfl

theorem optional_of_unfinished {c : Cursor} (h : p c = .unfinished) :
    optional p c = .unfinished := by
  rw [optional, choice, attempts_cons_unfinished h]
  rfl

theorem Reads.optional (h : p.Reads t a rest) : (optional p).Reads t (some a) rest :=
  fun c hc => optional_of_ok (h c hc)

theorem Refuses.optional (h : p.Refuses rest) : (optional p).Reads [] none rest := fun c hc =>
  have ⟨_, hf⟩ := h c hc
  optional_of_failure hf

end Parser

/-! ## Grammars -/

namespace Grammar

/-- The grammar reads a text and gives a value wherever the text is followed by another one. -/
def Reads (rules : Rules) (g : Grammar) (t : Text) (v : Value) (rest : Text) : Prop :=
  ∀ c : Cursor, c.Before (t ++ rest) → g.ComesTo rules c (.ok (v, c.past t))

/-- The grammar fails wherever a text is in front of it. -/
def Refuses (rules : Rules) (g : Grammar) (rest : Text) : Prop :=
  ∀ c : Cursor, c.Before rest → ∃ f, g.ComesTo rules c (.error (.failure f))

variable {rules : Rules} {g : Grammar} {gs : List Grammar} {t rest : Text} {v : Value}

/-- A grammar that is a parser without others in it reads what the parser reads. -/
theorem reads_of_layer {α : Type} {p : Parser α} {f : α → Value} {a : α} (h : p.Reads t a rest)
    (hlayer : ∀ n, g.layer rules n (meaning rules n) = p.map f) : g.Reads rules t (f a) rest := by
  intro c hc
  have hp : p.map f c = .ok (f a, c.past t) := by rw [Parser.map, h c hc]; rfl
  exact comesTo_of_layer ⟨0, fun n _ => (congrFun (hlayer n) c).trans hp⟩

theorem refuses_of_layer {α : Type} {p : Parser α} {f : α → Value} (h : p.Refuses rest)
    (hlayer : ∀ n, g.layer rules n (meaning rules n) = p.map f) : g.Refuses rules rest := by
  intro c hc
  obtain ⟨failure, hf⟩ := h c hc
  have hp : p.map f c = .error (.failure failure) := by rw [Parser.map, hf]; rfl
  exact ⟨failure, comesTo_of_layer ⟨0, fun n _ => (congrFun (hlayer n) c).trans hp⟩⟩

theorem reads_literal (s : String) (rest : Text) :
    (literal s).Reads rules s.toList (.text s.toList) rest :=
  reads_of_layer (f := .text) (Parser.reads_literal s rest) fun _ => rfl

theorem refuses_literal {s : String} (h : s.toList.isPrefixOf rest = false) :
    (literal s).Refuses rules rest :=
  refuses_of_layer (f := .text) (Parser.refuses_literal h) fun _ => rfl

theorem reads_takeWhile {keep : Char → Bool} (ht : ∀ ch ∈ t, keep ch = true)
    (hrest : rest.opensWith keep = false) : (takeWhile keep).Reads rules t (.text t) rest :=
  reads_of_layer (f := .text) (Parser.reads_takeWhile ht hrest) fun _ => rfl

theorem Reads.map (h : g.Reads rules t v rest) (f : Mapping) :
    (map g f).Reads rules t (f.apply v) rest := by
  intro c hc
  refine comesTo_of_layer ((h c hc).of_eq fun n hn => ?_)
  rw [layer, Parser.map, hn]
  rfl

theorem Refuses.map (h : g.Refuses rules rest) (f : Mapping) : (map g f).Refuses rules rest := by
  intro c hc
  obtain ⟨failure, hf⟩ := h c hc
  refine ⟨failure, comesTo_of_layer (hf.of_eq fun n hn => ?_)⟩
  rw [layer, Parser.map, hn]
  rfl

theorem reads_spaces (ht : ∀ ch ∈ t, isSpace ch = true) (hrest : rest.opensWith isSpace = false) :
    spaces.Reads rules t .unit rest :=
  (reads_takeWhile ht hrest).map .unit

theorem Reads.ref {name : String} (hname : rules name = some g) (h : g.Reads rules t v rest) :
    (ref name).Reads rules t v rest := by
  intro c hc
  refine comesTo_of_layer ?_
  simp only [layer, Rules.parser, hname]
  exact h c hc

theorem Refuses.ref {name : String} (hname : rules name = some g) (h : g.Refuses rules rest) :
    (ref name).Refuses rules rest := by
  intro c hc
  obtain ⟨failure, hf⟩ := h c hc
  refine ⟨failure, comesTo_of_layer ?_⟩
  simp only [layer, Rules.parser, hname]
  exact hf

theorem Reads.optional (h : g.Reads rules t v rest) :
    (optional g).Reads rules t (.some v) rest := by
  intro c hc
  refine comesTo_of_layer ((h c hc).of_eq fun n hn => ?_)
  show (Parser.optional _).map Value.ofOption c = _
  rw [Parser.map, Parser.optional_of_ok hn]
  rfl

theorem Refuses.optional (h : g.Refuses rules rest) :
    (optional g).Reads rules [] .none rest := by
  intro c hc
  obtain ⟨f, hf⟩ := h c hc
  refine comesTo_of_layer (hf.of_eq fun n hn => ?_)
  show (Parser.optional _).map Value.ofOption c = _
  rw [Parser.map, Parser.optional_of_failure hn]
  rfl

/-! ### Alternatives -/

/-- The candidates before one that matches may fail. -/
theorem settles_attempts_matched {c : Cursor} {k : Grammar} {r : Value × Cursor}
    (hk : k.ComesTo rules c (.ok r)) (others : List Grammar) : ∀ {gs : List Grammar},
    (∀ g ∈ gs, ∃ f, g.ComesTo rules c (.error (.failure f))) →
      Settles (fun n => Parser.attempts ((gs ++ k :: others).map (meaning rules n).parser) c)
        (.ok (.matched r.1 r.2))
  | [], _ => hk.of_eq fun _ hn => Parser.attempts_cons_ok hn
  | g :: gs, h => by
    obtain ⟨f, hf⟩ := h g List.mem_cons_self
    have ih := settles_attempts_matched hk others fun g hg => h g (List.mem_cons_of_mem _ hg)
    simp only [List.cons_append]
    -- the failure of the first candidate is left out again once another one matches
    exact hf.congr (fun n hn => Parser.attempts_cons_failure hn)
      (ih.of_eq fun n hn => by rw [hn]; rfl)

/-- All candidates may fail. -/
theorem settles_attempts_missed {c : Cursor} : ∀ {gs : List Grammar},
    (∀ g ∈ gs, ∃ f, g.ComesTo rules c (.error (.failure f))) →
      ∃ fs, Settles (fun n => Parser.attempts (gs.map (meaning rules n).parser) c) (.ok (.missed fs))
  | [], _ => ⟨[], settles_const _⟩
  | g :: gs, h => by
    obtain ⟨f, hf⟩ := h g List.mem_cons_self
    obtain ⟨fs, ih⟩ := settles_attempts_missed fun g hg => h g (List.mem_cons_of_mem _ hg)
    exact ⟨f :: fs, hf.congr (fun n hn => Parser.attempts_cons_failure hn)
      (ih.of_eq fun n hn => by rw [hn]; rfl)⟩

/-- A choice reads what its first candidate reads that does not refuse. -/
theorem Reads.alt {k : Grammar} (hk : k.Reads rules t v rest) (gs : List Grammar)
    (h : ∀ g ∈ gs, g.Refuses rules (t ++ rest)) (others : List Grammar) (message : Option String) :
    (alt (gs ++ k :: others) message).Reads rules t v rest := by
  intro c hc
  have hmatched := settles_attempts_matched (hk c hc) others fun g hg => h g hg c hc
  refine comesTo_of_layer (hmatched.of_eq fun n hn => ?_)
  rw [layer, Parser.alt, hn]
  rfl

/-- A choice refuses what all its candidates refuse. -/
theorem refuses_alt (h : ∀ g ∈ gs, g.Refuses rules rest) (message : Option String) :
    (alt gs message).Refuses rules rest := by
  intro c hc
  obtain ⟨fs, hmissed⟩ := settles_attempts_missed fun g hg => h g hg c hc
  exact ⟨_, comesTo_of_layer (hmissed.of_eq fun n hn => Parser.alt_of_missed message hn)⟩

end Grammar

/-! ## Bodies -/

namespace Body

variable {α : Type} {p : Parser α} {a : α} {c d : Cursor} {pushed : List Value}

theorem run_of_ok (h : p c = .ok (a, d)) : run p ⟨c, pushed⟩ = (.ok a, ⟨d, pushed⟩) := by
  simp only [run, h]

theorem run_of_error {e : ParseError} (h : p c = .error e) :
    run p ⟨c, pushed⟩ = (.error e, ⟨c, pushed⟩) := by
  simp only [run, h]

variable {test : Body (Option α)} {body : Body Unit} {s t : Scope}

theorem whileSome_succ_none (n : Nat) (h : test s = (.ok none, t)) :
    whileSome (n + 1) test body s = (.ok (), t) := by
  rw [whileSome, bind_apply, h]
  rfl

theorem whileSome_succ_some (n : Nat) (h : test s = (.ok (some a), t)) :
    whileSome (n + 1) test body s = (body >>= fun _ => whileSome n test body) t := by
  rw [whileSome, bind_apply, h]

end Body

/-- The step reads a text and puts values aside wherever the text is followed by another one. -/
def Step.Reads (rules : Rules) (x : Step) (t : Text) (vs : List Value) (rest : Text) : Prop :=
  ∀ (c : Cursor) (pushed : List Value), c.Before (t ++ rest) →
    Settles (fun n => x.layer n (meaning rules n) ⟨c, pushed⟩) (.ok (), ⟨c.past t, pushed ++ vs⟩)

/-- The steps do so in a row. -/
def Step.AllRead (rules : Rules) (xs : List Step) (t : Text) (vs : List Value) (rest : Text) :
    Prop :=
  ∀ (c : Cursor) (pushed : List Value), c.Before (t ++ rest) →
    Settles (fun n => (meaning rules n).body xs ⟨c, pushed⟩) (.ok (), ⟨c.past t, pushed ++ vs⟩)

/-- The step fails wherever a text is in front of it. -/
def Step.Refuses (rules : Rules) (x : Step) (rest : Text) : Prop :=
  ∀ (c : Cursor) (pushed : List Value), c.Before rest →
    ∃ f s, Settles (fun n => x.layer n (meaning rules n) ⟨c, pushed⟩) (.error (.failure f), s)

/-- One of the steps does so, behind what those before it have read. -/
def Step.AllRefuse (rules : Rules) (xs : List Step) (rest : Text) : Prop :=
  ∀ (c : Cursor) (pushed : List Value), c.Before rest →
    ∃ f s, Settles (fun n => (meaning rules n).body xs ⟨c, pushed⟩) (.error (.failure f), s)

namespace Step

variable {rules : Rules} {g : Grammar} {x : Step} {xs yes no : List Step} {t u rest : Text}
  {v : Value} {vs ws : List Value}

/-- A body is its first step, one layer down, and then the others. -/
theorem body_cons (rules : Rules) (n : Nat) (x : Step) (xs : List Step) :
    (meaning rules (n + 1)).body (x :: xs) =
      x.layer n (meaning rules n) >>= fun _ => (meaning rules (n + 1)).body xs := rfl

theorem AllRead.nil (rules : Rules) (rest : Text) : AllRead rules [] [] [] rest := by
  intro c pushed _
  refine .of_succ ⟨0, fun n _ => ?_⟩
  rw [List.append_nil, Cursor.past_nil]
  rfl

theorem AllRead.cons (hx : x.Reads rules t vs (u ++ rest)) (hxs : AllRead rules xs u ws rest) :
    AllRead rules (x :: xs) (t ++ u) (vs ++ ws) rest := by
  intro c pushed hc
  rw [List.append_assoc] at hc
  have hrest := hxs (c.past t) (pushed ++ vs) hc.past
  rw [Cursor.past_past, List.append_assoc] at hrest
  refine .of_succ ((hx c pushed hc).congr (fun n hn => ?_) hrest.succ)
  rw [body_cons, Body.bind_apply, hn]

theorem reads_run (h : g.Reads rules t v rest) : (run g).Reads rules t [v] rest := by
  intro c pushed hc
  refine (h c hc).of_eq fun n hn => ?_
  rw [layer, Body.bind_apply, Body.run_of_ok hn]
  rfl

theorem reads_skip (h : g.Reads rules t v rest) : (skip g).Reads rules t [] rest := by
  intro c pushed hc
  refine (h c hc).of_eq fun n hn => ?_
  rw [layer, Body.bind_apply, Body.run_of_ok hn, List.append_nil]
  rfl

theorem AllRead.run (h : g.Reads rules t v (u ++ rest)) (hxs : AllRead rules xs u vs rest) :
    AllRead rules (.run g :: xs) (t ++ u) (v :: vs) rest :=
  .cons (reads_run h) hxs

theorem AllRead.skip (h : g.Reads rules t v (u ++ rest)) (hxs : AllRead rules xs u vs rest) :
    AllRead rules (.skip g :: xs) (t ++ u) vs rest :=
  .cons (reads_skip h) hxs

/-- Where no spaces are, none are skipped. -/
theorem AllRead.noSpaces (h : Text.opensWith isSpace (t ++ rest) = false)
    (hxs : AllRead rules xs t vs rest) : AllRead rules (.skip .spaces :: xs) t vs rest :=
  .skip (t := []) (Grammar.reads_spaces (List.forall_mem_nil _) h) hxs

theorem refuses_run (h : g.Refuses rules rest) : (run g).Refuses rules rest := by
  intro c pushed hc
  obtain ⟨f, hf⟩ := h c hc
  refine ⟨f, ⟨c, pushed⟩, hf.of_eq fun n hn => ?_⟩
  rw [layer, Body.bind_apply, Body.run_of_error hn]

theorem refuses_skip (h : g.Refuses rules rest) : (skip g).Refuses rules rest := by
  intro c pushed hc
  obtain ⟨f, hf⟩ := h c hc
  refine ⟨f, ⟨c, pushed⟩, hf.of_eq fun n hn => ?_⟩
  rw [layer, Body.bind_apply, Body.run_of_error hn]

theorem AllRefuse.first (hx : x.Refuses rules rest) (xs : List Step) :
    AllRefuse rules (x :: xs) rest := by
  intro c pushed hc
  obtain ⟨f, s, hf⟩ := hx c pushed hc
  refine ⟨f, s, .of_succ (hf.of_eq fun n hn => ?_)⟩
  rw [body_cons, Body.bind_apply, hn]

theorem AllRefuse.cons (hx : x.Reads rules t vs rest) (hxs : AllRefuse rules xs rest) :
    AllRefuse rules (x :: xs) (t ++ rest) := by
  intro c pushed hc
  obtain ⟨f, s, hrest⟩ := hxs (c.past t) (pushed ++ vs) hc.past
  refine ⟨f, s, .of_succ ((hx c pushed hc).congr (fun n hn => ?_) hrest.succ)⟩
  rw [body_cons, Body.bind_apply, hn]

theorem reads_ifMatch (h : g.Reads rules t v (u ++ rest)) (hyes : AllRead rules yes u vs rest)
    (no : List Step) : (ifMatch g yes no).Reads rules (t ++ u) (v :: vs) rest := by
  intro c pushed hc
  rw [List.append_assoc] at hc
  have hrest := hyes (c.past t) (pushed ++ [v]) hc.past
  rw [Cursor.past_past, List.append_assoc, List.singleton_append] at hrest
  refine (h c hc).congr (fun n hn => ?_) hrest
  rw [layer, Body.bind_apply, Body.run_of_ok (Parser.optional_of_ok hn)]
  rfl

theorem reads_ifMatch_no (h : g.Refuses rules (t ++ rest)) (hno : AllRead rules no t vs rest)
    (yes : List Step) : (ifMatch g yes no).Reads rules t vs rest := by
  intro c pushed hc
  obtain ⟨f, hf⟩ := h c hc
  refine hf.congr (fun n hn => ?_) (hno c pushed hc)
  rw [layer, Body.bind_apply, Body.run_of_ok (Parser.optional_of_failure hn)]

/-- A loop ends before what its test refuses. -/
theorem reads_whileMatch_end (h : g.Refuses rules rest) (xs : List Step) :
    (whileMatch g xs).Reads rules [] [] rest := by
  intro c pushed hc
  obtain ⟨f, hf⟩ := h c hc
  refine .of_succ (hf.succ.of_eq fun n hn => ?_)
  rw [List.append_nil, Cursor.past_nil]
  exact Body.whileSome_succ_none n (Body.run_of_ok (Parser.optional_of_failure hn))

/-- The rest of a loop may as well be run with one more layer for its test and its turns. -/
theorem settles_whileSome {s s' : Scope}
    (h : Settles (fun n => (whileMatch g xs).layer n (meaning rules n) s) (.ok (), s')) :
    Settles (fun n => Body.whileSome n (Body.run (Parser.optional ((meaning rules (n + 1)).parser g)))
      ((meaning rules (n + 1)).body xs) s) (.ok (), s') := by
  refine h.of_eq fun n hn => ?_
  have hle := meaning_mono rules (Nat.le_succ n)
  have hloop : Body.Le ((whileMatch g xs).layer n (meaning rules n)) _ :=
    .whileSome (.run (hle.parser g).optional) (hle.body xs) (Nat.le_refl n)
  -- the loop has returned, so more budget does not change it
  rw [Body.eq_of_le hloop (by rw [hn]; nofun), hn]

/-- A turn of a loop, and the rest of the loop behind it. -/
theorem Reads.whileMatch {s : Text} (h : g.Reads rules s v (t ++ (u ++ rest)))
    (hxs : AllRead rules xs t vs (u ++ rest)) (hloop : (whileMatch g xs).Reads rules u ws rest) :
    (whileMatch g xs).Reads rules (s ++ (t ++ u)) (vs ++ ws) rest := by
  intro c pushed hc
  rw [List.append_assoc, List.append_assoc] at hc
  have hturn := hxs (c.past s) pushed hc.past
  -- the rest of the loop starts behind the test and behind the turn
  have hrest := settles_whileSome (hloop ((c.past s).past t) (pushed ++ vs) hc.past.past)
  rw [Cursor.past_past, Cursor.past_past, List.append_assoc, List.append_assoc] at hrest
  refine .of_succ ((h c hc).succ.congr (fun n hn => Body.whileSome_succ_some n
    (Body.run_of_ok (Parser.optional_of_ok hn))) (hturn.succ.congr (fun n hn => ?_) hrest))
  rw [Body.bind_apply, hn, Cursor.past_past]
  rfl

end Step

namespace Grammar

variable {rules : Rules} {g : Grammar} {xs : List Step} {t rest : Text} {vs : List Value}

/-- A block gives what its steps put aside, or one element of it. -/
theorem reads_block_result (h : Step.AllRead rules xs t vs rest) (result : Option Nat) :
    (block xs result).Reads rules t
      (result.elim (.list vs) fun i => (vs[i]?).getD .undefined) rest := by
  intro c hc
  have hbody := h c [] (by exact hc)
  refine comesTo_of_layer (hbody.of_eq fun n hn => ?_)
  simp only [layer, Parser.ofBody, Scope.enter, Body.bind_apply, hn]
  cases result <;> rfl

theorem reads_block (h : Step.AllRead rules xs t vs rest) :
    (block xs none).Reads rules t (.list vs) rest :=
  reads_block_result h none

theorem refuses_block_of_steps (h : Step.AllRefuse rules xs rest) (result : Option Nat) :
    (block xs result).Refuses rules rest := by
  intro c hc
  obtain ⟨f, s, hbody⟩ := h c [] hc
  refine ⟨f, comesTo_of_layer (hbody.of_eq fun n hn => ?_)⟩
  simp only [layer, Parser.ofBody, Scope.enter, Body.bind_apply, hn]

theorem refuses_block (h : g.Refuses rules rest) (xs : List Step) (result : Option Nat) :
    (block (.skip g :: xs) result).Refuses rules rest :=
  refuses_block_of_steps (.first (Step.refuses_skip h) xs) result

end Grammar

end Backtrack
