import PredictiveParsing.Sets.First

/-!
# FOLLOW sets

`FOLLOW` of a nonterminal holds the terminals that can come directly after it in what the
nonterminals derive, and the end marker if it can come last in what the start symbol derives.

## Main definitions

* `sites`: the nonterminals in a sequence, each with what comes after it.
* `followRule`: what one such place says about the set of its nonterminal.
* `FirstSets.followSets`: the sets of the nonterminals of a grammar.
-/

namespace PredictiveParsing

/-- The nonterminals of a sequence, each with the symbols after it. -/
def sites : List Symbol → List (String × List Symbol)
  | [] => []
  | .nonterminal name :: rest => (name, rest) :: sites rest
  | _ :: rest => sites rest

/-- What a place in an alternative of the nonterminal `name` says about `FOLLOW`, given the facts
known so far: the beginnings of the rest, and, where the rest derives the empty word, what comes
after the whole alternative. -/
def followRule (first : FirstSets) (name : String) (site : String × List Symbol)
    (facts : List Fact) : List Fact :=
  let starts := first.ofSequence site.2
  let after := if starts.contains .epsilon then membersOf facts name else []
  (starts.filter (· != .epsilon) ++ after).map fun s => (site.1, s)

structure FollowSets where
  grammar : Grammar
  facts : List Fact

namespace FollowSets

def get? (follow : FollowSets) (name : String) : Option (List Symbol) :=
  if follow.grammar.declares name then some (membersOf follow.facts name) else none

/-- Two families of `FOLLOW` sets are the same if they belong to the same grammar and agree. -/
def same (follow other : FollowSets) : Bool :=
  follow.grammar.same other.grammar && sameFacts follow.facts other.facts

end FollowSets

namespace FirstSets

def followRules (first : FirstSets) : List (List Fact → List Fact) :=
  first.grammar.rules.flatMap fun r =>
    r.alternatives.flatMap fun p => (sites p).map (followRule first r.name)

def endFacts (first : FirstSets) : List Fact :=
  if first.grammar.declares first.grammar.start then [(first.grammar.start, .endMarker)] else []

/-- The `FOLLOW` sets of the grammar: the least family that agrees with its alternatives and has the
end marker after the start symbol. -/
def followSets (first : FirstSets) : FollowSets :=
  ⟨first.grammar, saturate first.grammar.factDomain first.followRules first.endFacts⟩

end FirstSets

end PredictiveParsing
