/-
Rules that a grammar cannot come to do not matter to it. Main statement: the grammars of a fragment
mean the same under two sets of rules if these agree on every rule that the fragment refers to, and
one of them stays in the fragment (`meaning_sameOn`).
-/
import Backtrack.Grammar.Meaning
import Backtrack.Proofs.Fragment

namespace Backtrack

section

variable {rules rules' : Rules} {node : Grammar → Bool} {step : Step → Bool}

/-- Two meanings that agree on a fragment. -/
structure Meaning.SameOn (node : Grammar → Bool) (step : Step → Bool) (m m' : Meaning) : Prop where
  parser : ∀ g : Grammar, g.all node step = true → m.parser g = m'.parser g
  body : ∀ xs, Step.allIn node step xs = true → m.body xs = m'.body xs

variable {m m' : Meaning}

theorem Meaning.SameOn.parsers (h : m.SameOn node step m') {gs : List Grammar}
    (hgs : Grammar.allIn node step gs = true) : gs.map m.parser = gs.map m'.parser :=
  List.map_congr_left fun g hg => h.parser g (Grammar.all_of_mem hgs g hg)

theorem Step.layer_eq (h : m.SameOn node step m') (n : Nat) {x : Step}
    (hx : x.all node step = true) : x.layer n m = x.layer n m' := by
  cases x with
  | run g | skip g | attempt g | peek g =>
    simp only [Step.all, Bool.and_eq_true] at hx
    simp only [Step.layer, h.parser g hx.2]
  | ifMatch g yes no =>
    simp only [Step.all, Bool.and_eq_true] at hx
    simp only [Step.layer, h.parser g hx.2.1, h.body yes hx.2.2.1, h.body no hx.2.2.2]
  | whileMatch g xs =>
    simp only [Step.all, Bool.and_eq_true] at hx
    simp only [Step.layer, h.parser g hx.2.1, h.body xs hx.2.2]
  | _ => rfl

theorem Step.sequence_eq (h : m.SameOn node step m') (n : Nat) : ∀ {xs : List Step},
    Step.allIn node step xs = true → Step.sequence n m xs = Step.sequence n m' xs
  | [], _ => rfl
  | x :: xs, hxs => by
    simp only [Step.allIn, Bool.and_eq_true] at hxs
    simp only [Step.sequence, Step.layer_eq h n hxs.1, Step.sequence_eq h n hxs.2]

theorem Grammar.layer_eq (hr : rules.All node step)
    (hname : ∀ name, node (.ref name) = true → rules' name = rules name)
    (h : m.SameOn node step m') (n : Nat) {g : Grammar} (hg : g.all node step = true) :
    g.layer rules n m = g.layer rules' n m' := by
  have hnode := Grammar.all_node hg
  cases g with
  | nonEmpty g | map g f | convert g f | many g | many1 g =>
    simp only [Grammar.all, Bool.and_eq_true] at hg
    simp only [Grammar.layer, h.parser g hg.2]
  | and a b =>
    simp only [Grammar.all, Bool.and_eq_true] at hg
    simp only [Grammar.layer, h.parser a hg.2.1, h.parser b hg.2.2]
  | choice gs message | alt gs message =>
    simp only [Grammar.all, Bool.and_eq_true] at hg
    simp only [Grammar.layer, h.parsers hg.2]
  | block xs result =>
    simp only [Grammar.all, Bool.and_eq_true] at hg
    simp only [Grammar.layer, h.body xs hg.2]
  | ref name =>
    -- the rule itself lies in the fragment, so it means the same as well
    simp only [Grammar.layer, Rules.parser, hname name hnode]
    cases hrule : rules name with
    | some g => exact h.parser g (hr name g hrule)
    | none => rfl
  | _ => rfl

/-- Grammars of a fragment mean the same under rules that agree where the fragment refers to them. -/
theorem meaning_sameOn (hr : rules.All node step)
    (hname : ∀ name, node (.ref name) = true → rules' name = rules name) :
    ∀ n, (meaning rules n).SameOn node step (meaning rules' n)
  | 0 => ⟨fun _ _ => rfl, fun _ _ => rfl⟩
  | n + 1 =>
    have h := meaning_sameOn hr hname n
    ⟨fun _ hg => Grammar.layer_eq hr hname h n hg, fun _ hxs => Step.sequence_eq h n hxs⟩

end

end Backtrack
