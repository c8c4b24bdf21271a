import PredictiveParsing.Saturation
import PredictiveParsing.Grammar.Basic

/-!
# Warnings about a grammar

Two things that a grammar may be told about before it is used: nonterminals without alternatives,
and nonterminals that cannot be reached from the start symbol.

## Main definitions

* `Warning`: a remark about one nonterminal.
* `Grammar.reachable`: the nonterminals that can be reached from the start symbol.
* `Grammar.warnings`: all remarks about a grammar.
-/

namespace PredictiveParsing

inductive Warning where
  | noProductions (name : String)
  | unreachable (name : String)
  deriving DecidableEq, Repr

def Warning.message : Warning → String
  | noProductions n => "Non-terminal " ++ n ++ " has no productions"
  | unreachable n => "Non-terminal " ++ n ++ " is unreachable from the start symbol"

namespace Grammar

/-- The names of the nonterminals in the alternatives of `r`, if `r` is known to be reached. -/
def mentions (r : Rule) (known : List String) : List String :=
  if known.contains r.name then r.alternatives.flatten.filterMap Symbol.nonterminal? else []

/-- The names of the nonterminals that can be reached from the start symbol, itself included. -/
def reachable (g : Grammar) : List String := saturate g.names (g.rules.map mentions) [g.start]

/-- The remarks about a grammar: first the nonterminals without alternatives, then those that cannot
be reached, each in the order of the rules. -/
def warnings (g : Grammar) : List Warning :=
  let reached := g.reachable
  (g.rules.filter (·.alternatives.isEmpty)).map (.noProductions ·.name) ++
    (g.names.filter (!reached.contains ·)).map .unreachable

end Grammar

end PredictiveParsing
