import PredictiveParsing.Grammar.Fresh

/-!
# Immediate left recursion

A rule `A → A x | y` is replaced by `A → y A'` and `A' → x A' | ε`, for every nonterminal that has
an alternative beginning with itself. Recursion through other nonterminals is left as it is.

What follows `A` in its recursive alternatives becomes one single alternative of `A'`, in the order
of these alternatives.

## Main definitions

* `Grammar.eliminateRule`: one rule freed of immediate left recursion.
* `Grammar.eliminateLeftRecursion`: all rules of a grammar.
-/

namespace PredictiveParsing

def Alternative.beginsWith (name : String) (alternative : Alternative) : Bool :=
  alternative.head? == some (.nonterminal name)

namespace Rule

def recursive (r : Rule) : List Alternative := r.alternatives.filter (Alternative.beginsWith r.name)

def others (r : Rule) : List Alternative := r.alternatives.filter (!Alternative.beginsWith r.name ·)

/-- The other alternatives, each followed by the helper. One for the empty word becomes the helper
alone. -/
def leading (r : Rule) (helper : String) : List Alternative :=
  r.others.map fun p => (if Alternative.isEpsilon p then [] else p) ++ [.nonterminal helper]

/-- What follows the nonterminal in its recursive alternatives, joined and followed by the
helper. -/
def trailing (r : Rule) (helper : String) : Alternative :=
  (r.recursive.flatMap (·.drop 1)).filter (· != .epsilon) ++ [.nonterminal helper]

end Rule

namespace Grammar

def eliminateRule (g : Grammar) (r : Rule) : Grammar :=
  if r.recursive.isEmpty then g
  else
    let (helper, counted) := g.fresh r.name
    (counted.setAlternatives r.name (r.leading helper)).insertAfter r.name
      ⟨helper, [r.trailing helper, [.epsilon]]⟩

/-- Frees every rule of immediate left recursion. What is recursive is decided by the rules of the
given grammar; the names minted for earlier rules are taken for later ones. -/
def eliminateLeftRecursion (g : Grammar) : Grammar := g.rules.foldl eliminateRule g

end Grammar

end PredictiveParsing
