/-
What a grammar means: a parser. The meaning of a grammar is given in terms of the meaning of
the grammars in it, one layer at a time (`Grammar.layer`, `Step.layer`), and the layers are
stacked up to a budget. A run that would need more layers, or more turns of a repetition, than
its budget is unfinished.
-/
import Backtrack.Grammar
import Backtrack.Parser.Number
import Backtrack.Parser.Repetition
import Backtrack.Scope

namespace Backtrack

/-- How grammars parse and what steps do. -/
structure Meaning where
  parser : Grammar → Parser Value
  body : List Step → Body Unit

namespace Meaning

/-- Nothing ever returns. -/
def silent : Meaning where
  parser := fun _ _ => .unfinished
  body := fun _ s => (.unfinished, s)

end Meaning

/-- What a step does, given the meaning of the grammars and the steps in it. -/
def Step.layer (budget : Nat) (inner : Meaning) : Step → Body Unit
  | .run g => do Body.push (← Body.run (inner.parser g))
  | .skip g => do
    let _ ← Body.run (inner.parser g)
    return ()
  | .attempt g => do
    match ← Body.catching (Body.run (inner.parser g)) with
    | .ok v => Body.push v
    | .error e => Body.push (.caught e)
  | .peek g => do Body.push (← Body.peek (inner.parser g))
  | .state => do Body.push (Value.ofCursor (← Body.cursor))
  | .fail expected => Body.fail expected
  | .requireEnd expected => do
    if (← Body.cursor).atEnd then return () else Body.fail expected
  | .abort reason => Body.raise (.aborted reason)
  | .ifMatch g yes no => do
    match ← Body.run (Parser.optional (inner.parser g)) with
    | some v =>
      Body.push v
      inner.body yes
    | none => inner.body no
  | .whileMatch g steps =>
    Body.whileSome budget (Body.run (Parser.choice [inner.parser g] none)) (inner.body steps)

/-- Steps one after the other. -/
def Step.sequence (budget : Nat) (inner : Meaning) : List Step → Body Unit
  | [] => return ()
  | step :: steps => do
    step.layer budget inner
    Step.sequence budget inner steps

/-- The value of a body: the list of what it pushed, or one element of it. -/
def Body.result (element : Option Nat) : Body Value := fun s =>
  match element with
  | none => (.ok (.list s.pushed), s)
  | some i => (.ok ((s.pushed[i]?).getD .undefined), s)

/-- The rule of a name. A run that asks for a rule that is not there does not return. -/
def Rules.parser (rules : Rules) (inner : Meaning) (name : String) : Parser Value :=
  match rules name with
  | some g => inner.parser g
  | none => fun _ => .unfinished

/-- How a grammar parses, given the meaning of the grammars and the steps in it. -/
def Grammar.layer (rules : Rules) (budget : Nat) (inner : Meaning) : Grammar → Parser Value
  | .literal s => (Parser.literal s).map .text
  | .takeWhile keep => (Parser.takeWhile keep).map .text
  | .nonEmpty g => Parser.refuseEmpty Value.isEmptyText (inner.parser g)
  | .char keep expected => (Parser.char keep expected).map fun ch => .text [ch]
  | .endOfInput => Parser.endOfInput.map fun _ => .unit
  | .number => Parser.number.map .int
  | .succeed s => Parser.succeed (.text s.toList)
  | .fail expected => Parser.fail expected
  | .failAt position expected kind limit => Parser.failAt position expected kind limit
  | .abort reason => Parser.raise (.aborted reason)
  | .configure config => (Parser.configure config).map fun _ => .unit
  | .jump position => (Parser.jump position).map fun _ => .unit
  | .and a b => ((inner.parser a).and (inner.parser b)).map Value.ofPair
  | .map g f => (inner.parser g).map f.apply
  | .convert g f => (inner.parser g).convert f.apply
  | .many g => (Parser.many budget (inner.parser g)).map .list
  | .many1 g => (Parser.many1 budget (inner.parser g)).map .list
  | .choice gs message => (Parser.choice (gs.map inner.parser) message).map Value.ofOption
  | .alt gs message => Parser.alt (gs.map inner.parser) message
  | .block steps result => Parser.ofBody do
    inner.body steps
    Body.result result
  | .ref name => rules.parser inner name

/-- The meaning within a budget: so many layers, and as many turns of each repetition as there
are layers left. -/
def meaning (rules : Rules) : Nat → Meaning
  | 0 => .silent
  | budget + 1 =>
    { parser := fun g => g.layer rules budget (meaning rules budget)
      body := fun steps => Step.sequence budget (meaning rules budget) steps }

/-- A budget that no run uses up which ends in reasonable time. -/
def enough : Nat := 1000000000000

/-- The parser of a grammar. -/
def Grammar.parser (rules : Rules) (g : Grammar) : Parser Value := (meaning rules enough).parser g

/-- What a step does. -/
def Step.perform (rules : Rules) (step : Step) : Body Unit :=
  step.layer enough (meaning rules enough)

end Backtrack
