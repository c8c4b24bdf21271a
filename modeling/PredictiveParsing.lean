import PredictiveParsing.Analysis
import PredictiveParsing.Grammar.Basic
import PredictiveParsing.Grammar.Declaration
import PredictiveParsing.Grammar.Fresh
import PredictiveParsing.Grammar.LeadGroup
import PredictiveParsing.Grammar.LeftFactoring
import PredictiveParsing.Grammar.LeftRecursion
import PredictiveParsing.Grammar.Lexeme
import PredictiveParsing.Grammar.Reader
import PredictiveParsing.Grammar.Warning
import PredictiveParsing.Json.Basic
import PredictiveParsing.Options
import PredictiveParsing.Outer.JsonReader
import PredictiveParsing.Outer.JsonText
import PredictiveParsing.Outer.JsonToken
import PredictiveParsing.Outer.Settings
import PredictiveParsing.Outer.Tex
import PredictiveParsing.Parser.Configuration
import PredictiveParsing.Parser.Move
import PredictiveParsing.Parser.Run
import PredictiveParsing.Parser.SyntaxError
import PredictiveParsing.Parser.Weight
import PredictiveParsing.Pipeline
import PredictiveParsing.Proofs.Actions
import PredictiveParsing.Proofs.Attainable
import PredictiveParsing.Proofs.Cells
import PredictiveParsing.Proofs.Declarations
import PredictiveParsing.Proofs.Derivation
import PredictiveParsing.Proofs.EditScript
import PredictiveParsing.Proofs.Edits
import PredictiveParsing.Proofs.EmptyAlternative
import PredictiveParsing.Proofs.ErrorState
import PredictiveParsing.Proofs.Exactness
import PredictiveParsing.Proofs.Factored
import PredictiveParsing.Proofs.FactoredSets
import PredictiveParsing.Proofs.First
import PredictiveParsing.Proofs.Follow
import PredictiveParsing.Proofs.FollowExact
import PredictiveParsing.Proofs.FreshNames
import PredictiveParsing.Proofs.Grid
import PredictiveParsing.Proofs.Halting
import PredictiveParsing.Proofs.HelperRules
import PredictiveParsing.Proofs.Language
import PredictiveParsing.Proofs.LeadPartition
import PredictiveParsing.Proofs.LeftFactoring
import PredictiveParsing.Proofs.LeftRecursion
import PredictiveParsing.Proofs.Leftmost
import PredictiveParsing.Proofs.Lexemes
import PredictiveParsing.Proofs.Lookup
import PredictiveParsing.Proofs.LoopGuard
import PredictiveParsing.Proofs.Minting
import PredictiveParsing.Proofs.NoLeftRecursion
import PredictiveParsing.Proofs.Notation
import PredictiveParsing.Proofs.PanicMode
import PredictiveParsing.Proofs.Prediction
import PredictiveParsing.Proofs.Reachable
import PredictiveParsing.Proofs.ReadBack
import PredictiveParsing.Proofs.References
import PredictiveParsing.Proofs.Reload
import PredictiveParsing.Proofs.Report
import PredictiveParsing.Proofs.ReportedRecursion
import PredictiveParsing.Proofs.Representation
import PredictiveParsing.Proofs.ReservedName
import PredictiveParsing.Proofs.Rounds
import PredictiveParsing.Proofs.Runs
import PredictiveParsing.Proofs.Seams
import PredictiveParsing.Proofs.Search
import PredictiveParsing.Proofs.Selection
import PredictiveParsing.Proofs.SetCells
import PredictiveParsing.Proofs.Soundness
import PredictiveParsing.Proofs.Spelling
import PredictiveParsing.Proofs.Tokens
import PredictiveParsing.Proofs.Transitions
import PredictiveParsing.Proofs.WellFormed
import PredictiveParsing.Proofs.Words
import PredictiveParsing.Render.RuleText
import PredictiveParsing.Render.Rules
import PredictiveParsing.Render.Sets
import PredictiveParsing.Render.SymbolJson
import PredictiveParsing.Render.Table
import PredictiveParsing.Saturation
import PredictiveParsing.Sets.Basic
import PredictiveParsing.Sets.First
import PredictiveParsing.Sets.Follow
import PredictiveParsing.Symbol
import PredictiveParsing.Table
import PredictiveParsing.Text.Alphanumeric
import PredictiveParsing.Text.Blank
import PredictiveParsing.Text.Layout
