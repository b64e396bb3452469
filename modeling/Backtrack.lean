import Backtrack.Grammar.Budget
import Backtrack.Proofs.Boundary
import Backtrack.Proofs.Bracketings
import Backtrack.Proofs.Continuation
import Backtrack.Proofs.Displacement
import Backtrack.Proofs.Excerpts
import Backtrack.Proofs.ExclusiveChoices
import Backtrack.Proofs.FatalErrors
import Backtrack.Proofs.Journal
import Backtrack.Proofs.LeftFactoring
import Backtrack.Proofs.LeftRecursion
import Backtrack.Proofs.Leniency
import Backtrack.Proofs.LiteralParts
import Backtrack.Proofs.LongestSpan
import Backtrack.Proofs.MappedValues
import Backtrack.Proofs.Messages
import Backtrack.Proofs.NestedLists
import Backtrack.Proofs.Nesting
import Backtrack.Proofs.Onward
import Backtrack.Proofs.OptionalIterations
import Backtrack.Proofs.Peg.Complete
import Backtrack.Proofs.SnippetLimit
import Backtrack.Proofs.Spelling
import Backtrack.Proofs.Stepping
import Backtrack.Proofs.Whereabouts
import Backtrack.Walk
