import PredictiveParsing.Render.Rules
import PredictiveParsing.Table

/-!
# Written tables

A table is written as a grid with a line for each nonterminal and a column for each terminal. A cell
holds a whole rule.

## Main definitions

* `Table.grid`: the texts of all cells, with those of the margins.
* `Table.plain`, `Table.tex`, `Table.toJson`: the three forms of a table.
-/

namespace PredictiveParsing.Table

open Text

def cellText (name : String) : Option Alternative → String
  | none => ""
  | some p => (RuleText.single name p).plain name.length false

/-- The texts of the table: the terminals in a first line, and the nonterminals in a first
column. -/
def grid (t : Table) : List (List String) :=
  ("" :: t.grammar.terminalNames) ::
    t.rows.map fun row => row.1 :: row.2.map (cellText row.1)

def plain (t : Table) : String := "\n".intercalate (alignColumns t.grid)

section Tex

variable (escape : String → String)

def texCell (t : Table) (name : String) : Option Alternative → String
  | none => ""
  | some p => (RuleText.single name p).tex escape false t.grammar.terminalNames

/-- The first line of the table in TeX. -/
def texHeader (t : Table) : String :=
  let names := t.grammar.terminalNames
  " & ".intercalate
    (("\\[\\begin\x7barray\x7d\x7bc" ++ String.join (names.map fun _ => "|l") ++ "\x7d\n") ::
      names.map fun name => "\\text\x7b" ++ escape name ++ "\x7d")

def texRow (t : Table) (row : String × List (Option Alternative)) : String :=
  " & ".intercalate (escape row.1 :: row.2.map (t.texCell escape row.1))

/-- The table in TeX. -/
def tex (t : Table) : String :=
  t.texHeader escape ++ "\\\\\\hline\n" ++ "\\\\\n".intercalate (t.rows.map (t.texRow escape)) ++
    "\n\\end\x7barray\x7d\\]"

end Tex

def cellToJson (name : String) : Option Alternative → Json
  | none => .null
  | some p => (RuleText.single name p).toJson

def toJson (t : Table) : Json :=
  .object
    [("terminals", Json.strings t.grammar.terminalNames),
      ("rows", .array (t.rows.map fun row =>
        .array [.string row.1, .array (row.2.map (cellToJson row.1))]))]

end PredictiveParsing.Table
