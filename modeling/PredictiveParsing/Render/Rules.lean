import PredictiveParsing.Render.RuleText

/-!
# Written grammars

The rules of a grammar, one below the other, with their arrows in one column.

## Main definitions

* `Grammar.plain`, `Grammar.tex`, `Grammar.toJson`: the three forms of a grammar.
-/

namespace PredictiveParsing.Grammar

open Text

def ruleTexts (g : Grammar) : List RuleText := g.rules.map RuleText.ofRule

/-- The names of the terminals, in the order of the grammar. -/
def terminalNames (g : Grammar) : List String := g.terminals.map Symbol.name

/-- A rule in plain text within a grammar. A rule without alternatives ends with its arrow. -/
def plainRule (width : Nat) (r : RuleText) : String :=
  if r.rights.isEmpty then padLeft width r.left ++ " ->" else r.plain width true

def plain (g : Grammar) : String :=
  "\n".intercalate (g.ruleTexts.map (plainRule (maxWidth g.names)))

/-- The grammar in TeX. -/
def tex (escape : String → String) (g : Grammar) : String :=
  "\\\\\n".intercalate
    ("\\[\\begin\x7barray\x7d\x7bcll\x7d" ::
      g.ruleTexts.map (RuleText.tex escape · true g.terminalNames) ++ ["\\end\x7barray\x7d\\]"])

def toJson (g : Grammar) : Json :=
  .object [("productions", .array (g.ruleTexts.map RuleText.toJson))]

end PredictiveParsing.Grammar
