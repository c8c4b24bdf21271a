import PredictiveParsing.Parser.Weight

/-!
# Runs of the parser

A run starts with the start symbol on the stack and goes on as long as checked moves lead to another
configuration.

## Main definitions

* `Configuration.initial`: where a run starts.
* `Configuration.run`: the run from a configuration.
* `Table.parse`: the run on an input.
-/

namespace PredictiveParsing

namespace Configuration

def initial (t : Table) (tokens : List String) : Configuration :=
  { stack := [.nonterminal t.grammar.start], input := tokens }

/-- Goes on from a configuration until the parser stops. -/
def run (t : Table) (mode : Recovery) (c : Configuration) : Run :=
  match _h : c.step t mode with
  | .stopped r => r
  | .moved d => run t mode d
termination_by c.measure t
decreasing_by exact measure_step_lt ‹_›

end Configuration

/-- Parses a list of tokens. Each token is a terminal by itself, also one that is spelled `$`. -/
def Table.parse (t : Table) (mode : Recovery) (tokens : List String) : Run :=
  (Configuration.initial t tokens).run t mode

end PredictiveParsing
