/-
The settings are part of the frame of a run: nothing changes them but what is there to do so. Main
statement: a grammar that sets nothing and goes to no given position leaves the text and the
settings as they are, hands them on to every parser that it calls, and fails with the limit for
messages that it was started with (`config_framed`), wherever in it the failure was made.
-/
import Backtrack.Proofs.Invariant

namespace Backtrack

/-- The cursor reads a given text under given settings. -/
structure Cursor.Under (t : Text) (config : Config) (c : Cursor) : Prop where
  source : c.source = t
  config : c.config = config

/-- The message of the error shows as much of the text as the settings say. -/
def ParseError.Limited (config : Config) : ParseError → Prop
  | .failure f => f.snippetLimit = config.snippetLimit
  | .invalidStart .. | .noProgress _ | .aborted _ => True

/-- The grammars that say nothing about settings: they do not change them, and they do not make a
failure with a limit of its own. -/
def Grammar.isFramed (g : Grammar) : Bool := g.keepsConfig && g.isRelative

/-- A run stays in its text and under its settings. -/
def Invariant.framed (t : Text) (config : Config) : Invariant where
  cursor := Cursor.Under t config
  error := ParseError.Limited config
  node := Grammar.isFramed
  step _ := true
  advance hc _ := ⟨hc.source, hc.config⟩
  configure h := by cases h
  jump h := by cases h
  failure hc _ _ := congrArg Config.snippetLimit hc.config
  noProgress _ := trivial
  aborted _ := trivial
  invalidStart h := by cases h
  failAt h := by cases h

/-- A grammar that says nothing about settings leaves them as they are: in the cursor that comes
back, in the limit of a failure, and in every cursor that is handed to a parser on the way. A run that
may call parsers under these settings only is the same run. -/
theorem config_framed {rules : Rules} {g : Grammar}
    (hr : rules.All Grammar.isFramed fun _ => true)
    (hg : g.all Grammar.isFramed (fun _ => true) = true) (c : Cursor) (n : Nat) :
    (∀ v d, (meaning rules n).parser g c = .ok (v, d) →
      d.source = c.source ∧ d.config = c.config) ∧
    (∀ f, (meaning rules n).parser g c = .error (.failure f) →
      f.snippetLimit = c.config.snippetLimit) ∧
    (∀ e ∈ g.record rules n c, ∀ d ∈ e.cursors, d.source = c.source ∧ d.config = c.config) ∧
    ∀ allow : Grammar → Cursor → Bool,
      (∀ g' d, d.source = c.source → d.config = c.config → allow g' d = true) →
      (restricted allow rules n).parser g c = (meaning rules n).parser g c := by
  have hframed : (Invariant.framed c.source c.config).cursor c := ⟨rfl, rfl⟩
  constructor
  · intro v d h
    have hd := Invariant.next hr hg hframed h
    exact ⟨hd.source, hd.config⟩
  constructor
  · intro f h
    exact Invariant.of_error hr hg hframed h
  constructor
  · intro e he d hd
    have hcursor := Invariant.of_record hr hg hframed he hd
    exact ⟨hcursor.source, hcursor.config⟩
  · intro allow hallow
    refine restricted_eq fun g' d he => ?_
    -- a call is on record with the cursor that it was handed
    have hcursor := Invariant.of_record hr hg hframed he (List.mem_singleton_self d)
    exact hallow g' d hcursor.source hcursor.config

/-- A number or a word, behind a dash. -/
def dashed : Grammar :=
  .block [.skip (.literal "-"), .run (.alt [.number, .nonEmpty (.takeWhile Char.isAlpha)] none)] none

/-- The repetition ends behind the second dash under the settings that it was started with, and
where there is neither a number nor a word the failure of its first turn has the limit of these. -/
theorem config_framed_dashed :
    Rules.All Grammar.isFramed (fun _ => true) (fun _ => some dashed) ∧
      (Grammar.many1 (.ref "dashed")).all Grammar.isFramed (fun _ => true) = true ∧
      (∃ v d, (meaning (fun _ => some dashed) 9).parser (.many1 (.ref "dashed"))
          ⟨"é-7-ab".toList, 2, ⟨.stop, some 2⟩⟩ = .ok (v, d) ∧
        d.position = 7 ∧ d.config = ⟨.stop, some 2⟩) ∧
      ∃ f, (meaning (fun _ => some dashed) 9).parser (.many1 (.ref "dashed"))
          ⟨"é-???".toList, 2, ⟨.stop, some 2⟩⟩ = .error (.failure f) ∧
        f.position = 3 ∧ f.snippetLimit = some 2 := by
  have hr : Rules.All Grammar.isFramed (fun _ => true) (fun _ => some dashed) := by
    intro name g h
    cases h
    rfl
  have hg : (Grammar.many1 (.ref "dashed")).all Grammar.isFramed (fun _ => true) = true := rfl
  obtain ⟨hok, -, -⟩ := config_framed hr hg ⟨"é-7-ab".toList, 2, ⟨.stop, some 2⟩⟩ 9
  obtain ⟨-, hfailure, -⟩ := config_framed hr hg ⟨"é-???".toList, 2, ⟨.stop, some 2⟩⟩ 9
  exact ⟨hr, hg, ⟨_, _, rfl, rfl, (hok _ _ rfl).2⟩, _, rfl, rfl, hfailure _ rfl⟩

end Backtrack
