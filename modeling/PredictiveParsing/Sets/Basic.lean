import PredictiveParsing.Grammar.Basic

/-!
# Facts about nonterminals

A family of sets of symbols, one for each nonterminal, is kept as the list of its facts: `(A, s)`
says that `s` is in the set of `A`.

## Main definitions

* `Fact`: a nonterminal and a member of its set.
* `membersOf`: the set of one nonterminal.
* `Grammar.factDomain`: all facts that there can be about a grammar.
-/

namespace PredictiveParsing

/-- A nonterminal, by name, and a symbol in its set. -/
abbrev Fact := String × Symbol

def membersOf (facts : List Fact) (name : String) : List Symbol :=
  facts.filterMap fun fact => if fact.1 == name then some fact.2 else none

def sameFacts (facts others : List Fact) : Bool :=
  facts.all others.contains && others.all facts.contains

namespace Grammar

/-- The symbols that a set may contain: those of the right sides that are not nonterminals, the
empty word and the end marker. -/
def lookaheads (g : Grammar) : List Symbol :=
  ((g.occurrences ++ [Symbol.epsilon, Symbol.endMarker]).filter (·.nonterminal?.isNone)).eraseDups

def factDomain (g : Grammar) : List Fact :=
  g.names.flatMap fun name => g.lookaheads.map fun s => (name, s)

end Grammar

end PredictiveParsing
