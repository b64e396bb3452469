/-
Settings of a run. They travel in every cursor, so each parser sees those of the place where it
starts and may change them for what follows.
-/
namespace Backtrack

/-- What a repetition does when an iteration succeeds without moving. -/
inductive IdlePolicy where
  /-- The run stops with an error. -/
  | fail
  /-- The repetition ends, and the value of the idle iteration is dropped. -/
  | stop
deriving DecidableEq

/-- The settings of a run. -/
structure Config where
  /-- What a repetition does with an iteration that does not move. -/
  idle : IdlePolicy
  /-- How many characters of the remaining text the message of a failure shows; all without one. -/
  snippetLimit : Option Nat
deriving DecidableEq

/-- The settings that hold where none are given: idle iterations fail, messages are not cut. -/
def Config.default : Config := ⟨.fail, none⟩

def Config.withIdle (config : Config) (idle : IdlePolicy) : Config :=
  { config with idle := idle }

def Config.withSnippetLimit (config : Config) (limit : Nat) : Config :=
  { config with snippetLimit := some limit }

end Backtrack
