import RunGrammar.Command.Outcome
import RunGrammar.Proofs.LongestRuns
import RunGrammar.TagActions
import RunGrammar.Proofs.Repetition
import RunGrammar.Proofs.Resolution
import RunGrammar.Proofs.BindingHistory
import RunGrammar.Proofs.StateSets
import RunGrammar.Proofs.CompileOutcome
import RunGrammar.Proofs.RuleGrammar
import RunGrammar.Proofs.Reading
import RunGrammar.Proofs.Discovery
import RunGrammar.Proofs.Numbering
import RunGrammar.Proofs.Layouts
import RunGrammar.Proofs.Rewriting
import RunGrammar.Proofs.Completion
import RunGrammar.Proofs.Inlining
import RunGrammar.Proofs.JoinedInputs
import RunGrammar.Proofs.Lexing
import RunGrammar.Proofs.RenderedRules
import RunGrammar.Proofs.Comments
import RunGrammar.Proofs.SyntaxErrors
import RunGrammar.Proofs.CommandProcess
import RunGrammar.Proofs.RuleOrder
import RunGrammar.Proofs.Padding
import RunGrammar.Proofs.HostSymbols
import RunGrammar.Proofs.DefinedLookups
import RunGrammar.Proofs.BoundedRepetition
import RunGrammar.Proofs.TagCalls
import RunGrammar.Proofs.UnboundReferences
import RunGrammar.Proofs.FollowRelation
import RunGrammar.Proofs.AlphabetGrowth
import RunGrammar.Proofs.Tiling
import RunGrammar.Proofs.JsonReading
import RunGrammar.Proofs.JsonTexts
import RunGrammar.Proofs.RunLines
