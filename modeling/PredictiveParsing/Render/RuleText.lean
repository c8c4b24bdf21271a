import PredictiveParsing.Grammar.Basic
import PredictiveParsing.Json.Basic
import PredictiveParsing.Text.Layout

/-!
# Written rules

Once a rule is written, its symbols are names only. It can be written as plain text, in TeX and as
JSON. How a name is written in TeX is given by a function `escape`.

## Main definitions

* `RuleText`: a rule by the names of its symbols.
* `RuleText.plain`, `RuleText.tex`, `RuleText.toJson`: the three forms.
-/

namespace PredictiveParsing

structure RuleText where
  left : String
  rights : List (List String)
  deriving DecidableEq, Repr

namespace RuleText

open Text

def ofRule (r : Rule) : RuleText := ⟨r.name, r.alternatives.map (·.map Symbol.name)⟩

def single (left : String) (alternative : Alternative) : RuleText :=
  ⟨left, [alternative.map Symbol.name]⟩

/-- What stands between two alternatives in plain text: a bar, on a new line under the arrow if
`multiline`. -/
def bar (width : Nat) (multiline : Bool) : String :=
  if multiline then "\n" ++ padLeft width "" ++ "  | " else " | "

/-- The rule in plain text, with its name right-aligned in `width` characters. A rule without
alternatives has no text. -/
def plain (r : RuleText) (width : Nat) (multiline : Bool) : String :=
  if r.rights.isEmpty then ""
  else
    padLeft width r.left ++ " -> " ++
      (bar width multiline).intercalate (r.rights.map (" ".intercalate ·))

section Tex

variable (escape : String → String)

/-- A symbol in TeX, where `terminals` are the names of terminals. -/
def texSymbol (terminals : List String) (name : String) : String :=
  if name == Symbol.epsilon.name then "\\epsilon"
  else if terminals.contains name then "\\text\x7b" ++ escape name ++ "\x7d"
  else escape name

/-- The rule in TeX, with its arrow in a column of its own if `aligned`. A rule without alternatives
has no text. -/
def tex (r : RuleText) (aligned : Bool) (terminals : List String) : String :=
  if r.rights.isEmpty then ""
  else
    escape r.left ++ (if aligned then " & \\rightarrow &" else " \\rightarrow ") ++
      " \\mid ".intercalate
        (r.rights.map fun right => " \\ ".intercalate (right.map (texSymbol escape terminals)))

end Tex

def toJson (r : RuleText) : Json :=
  .object [("left", .string r.left), ("rights", .array (r.rights.map Json.strings))]

end RuleText

end PredictiveParsing
