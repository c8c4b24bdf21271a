import PredictiveParsing.Grammar.Basic
import PredictiveParsing.Grammar.Declaration

/-!
# Reading a grammar

The declarations of a text make up a grammar: the left sides are its nonterminals, the first of them
is the start symbol, and what is declared for one nonterminal in several places is joined.

## Main definitions

* `LoadError`: why a text is no grammar.
* `Symbol.ofLexeme`, `Alternative.ofLexemes`: the meaning of lexemes, given the left sides.
* `Grammar.ofText`: the grammar of a text.
-/

namespace PredictiveParsing

inductive LoadError where
  /-- No declaration has an alternative. -/
  | malformed
  /-- The declaration of this number has the end marker on its right side. -/
  | reservedSymbol (declaration : Nat)
  deriving DecidableEq, Repr

def LoadError.message : LoadError → String
  | malformed => "grammar contains no parseable production"
  | reservedSymbol n =>
    "declaration " ++ toString n ++ ": \"$\" is reserved for the end marker"

/-- The symbol that a lexeme stands for where `declared` are the nonterminals. The two spellings of
the empty word keep their meaning even if one of them is declared. -/
def Symbol.ofLexeme (declared : List String) (lexeme : String) : Symbol :=
  if lexeme == "ε" || lexeme == "epsilon" then .epsilon
  else if declared.contains lexeme then .nonterminal lexeme
  else .terminal lexeme

/-- The alternative that lexemes stand for. Among several symbols the empty word adds nothing and is
left out. -/
def Alternative.ofLexemes (declared : List String) (lexemes : List String) : Alternative :=
  let symbols := lexemes.map (Symbol.ofLexeme declared)
  if symbols.length > 1 then symbols.filter (· != .epsilon) else symbols

/-- The alternatives of a declaration. One without lexemes does not count. -/
def Declaration.alternatives (declared : List String) (d : Declaration) : List Alternative :=
  (d.right.filter (!·.isEmpty)).map (Alternative.ofLexemes declared)

namespace Grammar

def rulesOf (declarations : List Declaration) : List Rule :=
  let declared := (declarations.map Declaration.left).eraseDups
  declared.map fun name =>
    { name
      alternatives :=
        (declarations.filter (·.left == name)).flatMap (·.alternatives declared) }

/-- The grammar of a text. A reserved symbol is reported before the lack of alternatives. -/
def ofText (text : String) : Except LoadError Grammar :=
  let declarations := Declaration.ofText text.toList
  match declarations.find? Declaration.usesEndMarker with
  | some d => .error (.reservedSymbol d.number)
  | none =>
    match rulesOf declarations with
    | [] => .error .malformed
    | first :: rest =>
      if (first :: rest).all (·.alternatives.isEmpty) then .error .malformed
      else .ok (.ofRules (first :: rest) first.name)

end Grammar

end PredictiveParsing
