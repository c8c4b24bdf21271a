import PredictiveParsing.Outer.JsonText
import PredictiveParsing.Outer.Settings
import PredictiveParsing.Outer.Tex
import PredictiveParsing.Pipeline

/-!
# Analyses with a library

The library functions that the rest takes as parameters, and what comes out with them: options are
objects with known keys, a report is written without blanks, and names are escaped for TeX.

## Main definitions

* `Options.ofText?`, `Recovery.ofText?`: the settings in a text.
* `JsonLibrary.compact`: reading options and writing reports.
* `Analysis.reportText?`: the whole analysis as one text.
-/

namespace PredictiveParsing

/-! ## Settings -/

namespace Recovery

def name : Recovery → String
  | abort => "abort"
  | panicMode => "panic_mode"

def ofName? : String → Option Recovery
  | "abort" => some abort
  | "panic_mode" => some panicMode
  | _ => none

/-- A kind of recovery is given by its name, or by an object with the name as its only key and
`null` as the value. -/
def ofJson? : JsonData → Option Recovery
  | .string (some s) => ofName? s
  | .object [(some s, .null)] => ofName? s
  | _ => none

/-- The kind of recovery that settings with `recovery` as their only key set. -/
def ofText? (text : String) : Option Recovery := do
  let given ← (← JsonData.ofText? text).settings? ["recovery"]
  setting? given "recovery" abort ofJson?

end Recovery

/-- The options that a JSON value sets. -/
def Options.ofJson? (value : JsonData) : Option Options := do
  let given ← value.settings? ["eliminate_left_recursion", "left_factor", "recovery"]
  return {
    eliminateLeftRecursion := ← setting? given "eliminate_left_recursion" false JsonData.bool?
    leftFactor := ← setting? given "left_factor" false JsonData.bool?
    recovery := ← setting? given "recovery" .abort Recovery.ofJson? }

/-! ## Reports -/

/-- Options are read from an object, and values are written without blanks. -/
def JsonLibrary.compact : JsonLibrary Options where
  read text := (JsonData.ofText? text >>= Options.ofJson?).elim (.error "not options") .ok
  write value := .ok value.text
  display := Json.text

/-- The options that a text sets, if it can be read. -/
def Options.ofText? (text : String) : Option Options :=
  (Options.ofText JsonLibrary.compact.read text).toOption

/-- The whole analysis as one text. There is none if the options cannot be read. -/
def Analysis.reportText? (grammar input options : String) : Option String :=
  (Options.ofText? options).map fun _ =>
    analyzeToJson JsonLibrary.compact grammar input options

/-! ## Texts in TeX -/

open Text

def RuleText.latex (r : RuleText) (aligned : Bool) (terminals : List String) : String :=
  r.tex Tex.escape aligned terminals

def Grammar.latex (g : Grammar) : String := g.tex Tex.escape

def SetsRow.allLatex (rows : List SetsRow) : String := allTex Tex.escape rows

def Table.latex (t : Table) : String := t.tex Tex.escape

end PredictiveParsing
