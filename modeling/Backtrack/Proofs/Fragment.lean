/-
Fragments of the language of grammars: all grammars whose nodes pass one test and whose steps
pass another. A statement that leaves out some kind of node is one about a fragment, and so is one
about rules that have to stay in it.
-/
import Backtrack.Grammar

namespace Backtrack

mutual

/-- Whether every node of a grammar and every step of a body in it passes its test. -/
def Grammar.all (node : Grammar → Bool) (step : Step → Bool) : Grammar → Bool
  | g@(.nonEmpty a) | g@(.map a _) | g@(.convert a _) | g@(.many a) | g@(.many1 a) =>
    node g && a.all node step
  | g@(.and a b) => node g && (a.all node step && b.all node step)
  | g@(.choice gs _) | g@(.alt gs _) => node g && Grammar.allIn node step gs
  | g@(.block steps _) => node g && Step.allIn node step steps
  | g@(.literal _) | g@(.takeWhile _) | g@(.char ..) | g@.endOfInput | g@.number | g@(.succeed _)
  | g@(.fail _) | g@(.failAt ..) | g@(.abort _) | g@(.configure _) | g@(.jump _) | g@(.ref _) =>
    node g

/-- The same of all grammars of a list. -/
def Grammar.allIn (node : Grammar → Bool) (step : Step → Bool) : List Grammar → Bool
  | [] => true
  | g :: gs => g.all node step && Grammar.allIn node step gs

/-- Whether a step and every node and step in it passes its test. -/
def Step.all (node : Grammar → Bool) (step : Step → Bool) : Step → Bool
  | s@(.run g) | s@(.skip g) | s@(.attempt g) | s@(.peek g) => step s && g.all node step
  | s@(.ifMatch g yes no) =>
    step s && (g.all node step && (Step.allIn node step yes && Step.allIn node step no))
  | s@(.whileMatch g steps) => step s && (g.all node step && Step.allIn node step steps)
  | s@.state | s@(.fail _) | s@(.requireEnd _) | s@(.abort _) => step s

/-- The same of all steps of a list. -/
def Step.allIn (node : Grammar → Bool) (step : Step → Bool) : List Step → Bool
  | [] => true
  | s :: steps => s.all node step && Step.allIn node step steps

end

/-- Whether every rule lies in the fragment. -/
def Rules.All (node : Grammar → Bool) (step : Step → Bool) (rules : Rules) : Prop :=
  ∀ name g, rules name = some g → g.all node step = true

section

variable {node : Grammar → Bool} {step : Step → Bool}

theorem Grammar.all_of_mem : ∀ {gs : List Grammar}, Grammar.allIn node step gs = true →
    ∀ g ∈ gs, g.all node step = true
  | g :: gs, h, x, hx => by
    simp only [Grammar.allIn, Bool.and_eq_true] at h
    rcases List.mem_cons.1 hx with rfl | hx
    · exact h.1
    · exact Grammar.all_of_mem h.2 x hx

/-- The test of the nodes holds at the top. -/
theorem Grammar.all_node {g : Grammar} (h : g.all node step = true) : node g = true := by
  cases g <;> simp_all [Grammar.all]

theorem Step.all_step {s : Step} (h : s.all node step = true) : step s = true := by
  cases s <;> simp_all [Step.all]

end

/-- The grammars that name no position of the text. -/
def Grammar.isRelative : Grammar → Bool
  | .jump _ | .failAt .. => false
  | _ => true

/-- The grammars that set nothing; a jump goes back to the default settings. -/
def Grammar.keepsConfig : Grammar → Bool
  | .configure _ | .jump _ => false
  | _ => true

/-- The step leaves errors alone. -/
def Step.isStrict : Step → Bool
  | .attempt _ => false
  | _ => true

/-! ## Tests that leave nothing out -/

section

variable {node : Grammar → Bool} {step : Step → Bool}

mutual

theorem Grammar.all_of_forall (hn : ∀ g, node g = true) (hs : ∀ s, step s = true) :
    ∀ g : Grammar, g.all node step = true
  | .nonEmpty a | .map a _ | .convert a _ | .many a | .many1 a => by
    rw [Grammar.all, hn, Grammar.all_of_forall hn hs a]; rfl
  | .and a b => by
    rw [Grammar.all, hn, Grammar.all_of_forall hn hs a, Grammar.all_of_forall hn hs b]; rfl
  | .choice gs _ | .alt gs _ => by rw [Grammar.all, hn, Grammar.allIn_of_forall hn hs gs]; rfl
  | .block steps _ => by rw [Grammar.all, hn, Step.allIn_of_forall hn hs steps]; rfl
  | .literal _ | .takeWhile _ | .char .. | .endOfInput | .number | .succeed _ | .fail _
  | .failAt .. | .abort _ | .configure _ | .jump _ | .ref _ => by rw [Grammar.all, hn]

theorem Grammar.allIn_of_forall (hn : ∀ g, node g = true) (hs : ∀ s, step s = true) :
    ∀ gs : List Grammar, Grammar.allIn node step gs = true
  | [] => rfl
  | g :: gs => by
    rw [Grammar.allIn, Grammar.all_of_forall hn hs g, Grammar.allIn_of_forall hn hs gs]; rfl

theorem Step.all_of_forall (hn : ∀ g, node g = true) (hs : ∀ s, step s = true) :
    ∀ s : Step, s.all node step = true
  | .run g | .skip g | .attempt g | .peek g => by
    rw [Step.all, hs, Grammar.all_of_forall hn hs g]; rfl
  | .ifMatch g yes no => by
    rw [Step.all, hs, Grammar.all_of_forall hn hs g, Step.allIn_of_forall hn hs yes,
      Step.allIn_of_forall hn hs no]
    rfl
  | .whileMatch g steps => by
    rw [Step.all, hs, Grammar.all_of_forall hn hs g, Step.allIn_of_forall hn hs steps]; rfl
  | .state | .fail _ | .requireEnd _ | .abort _ => by rw [Step.all, hs]

theorem Step.allIn_of_forall (hn : ∀ g, node g = true) (hs : ∀ s, step s = true) :
    ∀ steps : List Step, Step.allIn node step steps = true
  | [] => rfl
  | s :: steps => by
    rw [Step.allIn, Step.all_of_forall hn hs s, Step.allIn_of_forall hn hs steps]; rfl

end

theorem Rules.all_of_forall (hn : ∀ g, node g = true) (hs : ∀ s, step s = true) (rules : Rules) :
    rules.All node step := fun _ g _ => Grammar.all_of_forall hn hs g

end

end Backtrack
