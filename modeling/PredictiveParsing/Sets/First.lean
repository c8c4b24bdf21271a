import PredictiveParsing.Saturation
import PredictiveParsing.Sets.Basic

/-!
# FIRST sets

`FIRST` of a sequence of symbols holds the terminals that can begin what the sequence derives, and
the empty word if the sequence derives it.

## Main definitions

* `firstOf`: `FIRST` of a sequence, given the sets of the nonterminals.
* `firstRule`: what one alternative says about the set of its nonterminal.
* `Grammar.firstSets`: the sets of the nonterminals of a grammar.
-/

namespace PredictiveParsing

/-- `FIRST` of a sequence: the members of its symbols from the left, up to the first one that does
not derive the empty word. A nonterminal without facts derives nothing at all. -/
def firstOf (facts : List Fact) : List Symbol → List Symbol
  | [] => [.epsilon]
  | .epsilon :: rest => firstOf facts rest
  | .nonterminal name :: rest =>
    let own := membersOf facts name
    if own.contains .epsilon then own.filter (· != .epsilon) ++ firstOf facts rest else own
  | s :: _ => [s]

/-- What an alternative of the nonterminal `name` says about `FIRST`, given the facts known so
far. -/
def firstRule (name : String) (p : Alternative) (facts : List Fact) : List Fact :=
  (firstOf facts p).map fun s => (name, s)

structure FirstSets where
  grammar : Grammar
  facts : List Fact

namespace FirstSets

/-- The set of a nonterminal, and nothing for a name that the grammar does not declare. -/
def get? (first : FirstSets) (name : String) : Option (List Symbol) :=
  if first.grammar.declares name then some (membersOf first.facts name) else none

def ofSequence (first : FirstSets) (sequence : List Symbol) : List Symbol :=
  firstOf first.facts sequence

def isNullable (first : FirstSets) (name : String) : Bool :=
  ((first.get? name).map (·.contains .epsilon)).getD false

end FirstSets

namespace Grammar

def firstRules (g : Grammar) : List (List Fact → List Fact) :=
  g.rules.flatMap fun r => r.alternatives.map (firstRule r.name)

/-- The `FIRST` sets of a grammar: the least family that agrees with its alternatives. -/
def firstSets (g : Grammar) : FirstSets := ⟨g, saturate g.factDomain g.firstRules []⟩

end Grammar

end PredictiveParsing
