import PredictiveParsing.Json.Basic
import PredictiveParsing.Sets.Follow

/-!
# Written FIRST and FOLLOW sets

For each nonterminal, its two sets are written with their members in increasing order of the names
and the empty word last.

## Main definitions

* `Symbol.memberNames`: the names in a set.
* `SetsRow`: what is written about one nonterminal.
* `SetsRow.allPlain`, `SetsRow.allTex`, `SetsRow.allToJson`: the three forms of all rows.
-/

namespace PredictiveParsing

/-- The names of the members of a set in increasing order, with that of the empty word last. -/
def Symbol.memberNames (set : List Symbol) : List String :=
  ((set.eraseDups.filter (· != .epsilon)).map name).mergeSort (· ≤ ·) ++
    if set.contains .epsilon then [epsilon.name] else []

/-- What is written about one nonterminal. -/
structure SetsRow where
  name : String
  nullable : Bool
  first : List String
  follow : List String
  deriving DecidableEq, Repr

namespace SetsRow

/-- The row of a nonterminal. A nonterminal without a set counts as one with the empty set. -/
def ofName (first : FirstSets) (follow : FollowSets) (name : String) : SetsRow where
  name
  nullable := first.isNullable name
  first := Symbol.memberNames ((first.get? name).getD [])
  follow := Symbol.memberNames ((follow.get? name).getD [])

/-- The rows of all nonterminals of the grammar of `first`. -/
def all (first : FirstSets) (follow : FollowSets) : List SetsRow :=
  first.grammar.names.map (ofName first follow)

def plainSet (label name : String) (members : List String) : String :=
  label ++ "(" ++ name ++ ") = \x7b" ++ ", ".intercalate members ++ "\x7d"

def plain (r : SetsRow) : String :=
  plainSet "FIRST" r.name r.first ++ "\n" ++ plainSet "FOLLOW" r.name r.follow

def allPlain (rows : List SetsRow) : String := "\n".intercalate (rows.map plain)

/-- Writes a character that stands for the empty word as a formula. -/
def epsilonFormula (c : Char) : String := if c == 'ε' then "$\\epsilon$" else c.toString

section Tex

variable (escape : String → String)

/-- A set in TeX. The sign of the empty word becomes a formula wherever it stands, also within a
name. -/
def texSet (members : List String) : String :=
  String.join (("\\ ".intercalate (members.map escape)).toList.map epsilonFormula)

def tex (r : SetsRow) : String :=
  " & ".intercalate
    [escape r.name, if r.nullable then "true" else "false", texSet escape r.first,
      texSet escape r.follow]

def allTex (rows : List SetsRow) : String :=
  "\\begin\x7btabular\x7d\x7bc|c|c|c\x7d\n" ++
    "Symbol & Nullable & First & Follow\\\\\\hline\n" ++
    "\\\\\n ".intercalate (rows.map (tex escape)) ++
    "\\\\\n\\end\x7btabular\x7d"

end Tex

def toJson (r : SetsRow) : Json :=
  .object
    [("name", .string r.name), ("nullable", .bool r.nullable), ("first", Json.strings r.first),
      ("follow", Json.strings r.follow)]

def allToJson (rows : List SetsRow) : Json := .object [("data", .array (rows.map toJson))]

end SetsRow

end PredictiveParsing
