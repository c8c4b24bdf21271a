import PredictiveParsing.Grammar.LeftFactoring
import PredictiveParsing.Grammar.LeftRecursion
import PredictiveParsing.Grammar.Reader
import PredictiveParsing.Grammar.Warning
import PredictiveParsing.Options
import PredictiveParsing.Parser.Run
import PredictiveParsing.Render.Sets
import PredictiveParsing.Render.Table

/-!
# Analyses

An analysis is everything there is to say about a grammar and an input: the grammar after the chosen
changes, its sets and its table, the warnings, and the run of the parser.

## Main definitions

* `Grammar.prepare`: the grammar of a text with the chosen changes.
* `Analysis`: a prepared grammar with all that is computed from it.
* `Analysis.analyzeToJson`: the whole analysis as one text.
-/

namespace PredictiveParsing

/-- Makes the chosen changes to a grammar. Left recursion is taken out first. -/
def Grammar.change (options : Options) (g : Grammar) : Grammar :=
  let g := if options.eliminateLeftRecursion then g.eliminateLeftRecursion else g
  if options.leftFactor then g.leftFactor else g

/-- The grammar of a text with the chosen changes. -/
def Grammar.prepare (options : Options) (text : String) : Except LoadError Grammar :=
  (Grammar.ofText text).map (Grammar.change options)

def Grammar.table (g : Grammar) : Table :=
  let first := g.firstSets
  Table.build first first.followSets

structure Analysis where
  grammar : Grammar
  first : FirstSets
  follow : FollowSets
  table : Table
  run : Run

namespace Analysis

def ofGrammar (g : Grammar) (mode : Recovery) (tokens : List String) : Analysis :=
  let first := g.firstSets
  let follow := first.followSets
  let table := Table.build first follow
  ⟨g, first, follow, table, table.parse mode tokens⟩

def tokens (input : String) : List String := (Text.words input.toList).map String.ofList

def ofText (options : Options) (grammar input : String) : Except LoadError Analysis :=
  (Grammar.prepare options grammar).map (ofGrammar · options.recovery (tokens input))

end Analysis

def TreeEdge.toJson (e : TreeEdge) : Json :=
  .object [("parent", .string e.parent), ("children", Json.strings e.children)]

/-- What a report says about a run. The stack has its top last. -/
def Run.toJson (r : Run) : Json :=
  .object
    [("accepted", .bool (r.outcome == .accepted)),
      ("message", .string r.outcome.message),
      ("stack", Json.strings (r.final.stack.reverse.map Symbol.name)),
      ("input", Json.strings ((inputSymbols r.final.input).map Symbol.name)),
      ("tree", .array (r.tree.map TreeEdge.toJson))]

namespace Analysis

def toJson (a : Analysis) : Json :=
  .object
    [("productions", a.grammar.toJson),
      ("terminals", Json.strings a.grammar.terminalNames),
      ("non_terminals", Json.strings a.grammar.names),
      ("first_follow", SetsRow.allToJson (SetsRow.all a.first a.follow)),
      ("table", a.table.toJson),
      ("conflicts", Json.strings (a.table.conflicts.map Conflict.message)),
      ("warnings", Json.strings (a.grammar.warnings.map Warning.message)),
      ("parse", a.run.toJson)]

def errorText (library : JsonLibrary Options) (message : String) : String :=
  library.display (.object [("error", .string message)])

/-- The whole analysis as one text. Where the options or the grammar cannot be read, or the report
cannot be written, the text has the message of this error and nothing else. -/
def analyzeToJson (library : JsonLibrary Options) (grammar input options : String) : String :=
  match Options.ofText library.read options with
  | .error message => errorText library ("invalid options: " ++ message)
  | .ok options =>
    match ofText options grammar input with
    | .error e => errorText library e.message
    | .ok a =>
      match library.write a.toJson with
      | .ok text => text
      | .error message => errorText library message

end Analysis

end PredictiveParsing
