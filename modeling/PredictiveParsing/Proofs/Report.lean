import PredictiveParsing.Proofs.Exactness
import PredictiveParsing.Proofs.ReadBack
import PredictiveParsing.Proofs.Words

/-!
# What a report says about the grammar that was written

A report is made with the grammar after the chosen changes. What its text says about the input holds
for the grammar that was written: an accepted input is derived there, as no change adds a word, and
if no conflict is reported, then all that is derived is accepted, unless the elimination of left
recursion has lost words.

## Main statements

* `Analysis.exists_write_eq`: the text of a report is that of the analysis after the changes.
* `Analysis.report_exact`: what a report says holds for the grammar that was written.
-/

namespace PredictiveParsing

namespace Analysis

variable {library : JsonLibrary Options} {reader : JsonReader} {options : Options}
  {grammar input settings text : String} {g : Grammar} {a : Analysis}

/-! ## What is read from a report -/

theorem at?_accepted : a.toJson.at? ["parse", "accepted"]
    = some (.bool (a.run.outcome == .accepted)) := by
  simp [toJson, Run.toJson, Json.at?]

theorem at?_conflicts : a.toJson.at? ["conflicts"]
    = some (Json.strings (a.table.conflicts.map Conflict.message)) := by
  simp [toJson, Json.at?]

theorem accepted_iff (hreads : reader.Reads library) (ha : library.write a.toJson = .ok text) :
    reader.bool? text ["parse", "accepted"] = some true ↔ a.run.outcome = .accepted := by
  simp [hreads.bool? ha at?_accepted]

theorem conflicts_iff (hreads : reader.Reads library) (ha : library.write a.toJson = .ok text) :
    reader.strings? text ["conflicts"] = some [] ↔ a.table.isLL1 := by
  simp [hreads.strings? ha at?_conflicts, Table.isLL1]

/-- Where options and grammar can be read, the text of a report is that of the analysis after the
changes. -/
theorem exists_write_eq (hreads : reader.Reads library)
    (hsettings : Options.ofText library.read settings = .ok options)
    (hg : Grammar.ofText grammar = .ok g) (input : String) :
    library.write (ofGrammar (g.change options) options.recovery (tokens input)).toJson
      = .ok (analyzeToJson library grammar input settings) := by
  obtain ⟨text, htext⟩ := hreads.exists_write
    (ofGrammar (g.change options) options.recovery (tokens input)).toJson
  have ha : ofText options grammar input
      = .ok (ofGrammar (g.change options) options.recovery (tokens input)) := by
    simp [ofText, Grammar.prepare, hg, Except.map]
  simp [analyzeToJson, hsettings, ha, htext]

/-! ## The grammar that was written -/

/-- An accepted input is derived in the grammar that was written, whatever changes were chosen. -/
theorem mem_language_of_accepted (hg : Grammar.ofText grammar = .ok g) {tokens : List String}
    (h : (ofGrammar (g.change options) options.recovery tokens).run.outcome = .accepted) :
    tokens ∈ g.language := by
  have hwf := Grammar.wellFormed_ofText hg
  exact (Grammar.within_change hwf).language_le hwf.start_mem
    (Grammar.mem_language_of_parse_accepted (Grammar.Attainable.ofText hg).change.wellFormed h)

/-- Where the table has no conflict and no word was lost, what is derived in the grammar that was
written is accepted. -/
theorem accepted_of_mem_language (hg : Grammar.ofText grammar = .ok g) {tokens : List String}
    (hconflicts : (g.change options).table.isLL1)
    (hgrow : options.eliminateLeftRecursion = false ∨ ∀ r ∈ g.rules, r.growing.length ≤ 1)
    (h : tokens ∈ g.language) :
    (ofGrammar (g.change options) options.recovery tokens).run.outcome = .accepted := by
  have hwf := Grammar.wellFormed_ofText hg
  exact Grammar.parse_accepted_of_mem_language (Grammar.Attainable.ofText hg).change.wellFormed
    hconflicts ((Grammar.covers_change hwf hgrow).le_language hwf.start_mem h)

/-- What the text of a report says holds for the grammar that was written. An accepted input is
derived there. If no conflict is reported, and left recursion was not eliminated or no nonterminal
has two alternatives that begin with it and have a further symbol, then every word of the grammar
can be given as an input and is reported as accepted. -/
theorem report_exact (hreads : reader.Reads library)
    (hsettings : Options.ofText library.read settings = .ok options)
    (hg : Grammar.ofText grammar = .ok g) :
    (reader.bool? (analyzeToJson library grammar input settings) ["parse", "accepted"] = some true →
      tokens input ∈ g.language) ∧
    (reader.strings? (analyzeToJson library grammar input settings) ["conflicts"] = some [] →
      (options.eliminateLeftRecursion = false ∨ ∀ r ∈ g.rules, r.growing.length ≤ 1) →
      ∀ w ∈ g.language, (∃ other, tokens other = w) ∧
        ∀ other, tokens other = w →
          reader.bool? (analyzeToJson library grammar other settings) ["parse", "accepted"]
            = some true) := by
  have hwrite := exists_write_eq hreads hsettings hg
  constructor
  · rw [accepted_iff hreads (hwrite input)]
    exact mem_language_of_accepted hg
  · rw [conflicts_iff hreads (hwrite input)]
    intro hconflicts hgrow w hw
    refine ⟨Grammar.exists_tokens_eq hg hw, ?_⟩
    rintro other rfl
    rw [accepted_iff hreads (hwrite other)]
    exact accepted_of_mem_language hg hconflicts hgrow hw

theorem report_exact_of_text :
    let grammar := "E -> E + T | T; T -> x"
    let settings := "\x7b\"eliminate_left_recursion\":true\x7d"
    let g := Grammar.ofRules
      [⟨"E", [[.nonterminal "E", .terminal "+", .nonterminal "T"], [.nonterminal "T"]]⟩,
        ⟨"T", [[.terminal "x"]]⟩] "E"
    let options : Options := { eliminateLeftRecursion := true }
    let report := fun input => analyzeToJson JsonLibrary.compact grammar input settings
    JsonReader.ofText.Reads JsonLibrary.compact ∧
      Options.ofText JsonLibrary.compact.read settings = .ok options ∧
      Grammar.ofText grammar = .ok g ∧
      JsonReader.ofText.bool? (report "x + x") ["parse", "accepted"] = some true ∧
      JsonReader.ofText.strings? (report "x + x") ["conflicts"] = some [] ∧
      tokens "x + x" ∈ g.language ∧
      ∀ w ∈ g.language, ∀ other, tokens other = w →
        JsonReader.ofText.bool? (report other) ["parse", "accepted"] = some true := by
  intro grammar settings g options report
  have hreads := JsonReader.reads_compact
  have hsettings : Options.ofText JsonLibrary.compact.read settings = .ok options := by
    decide +kernel
  have hg : Grammar.ofText "E -> E + T | T; T -> x" = .ok g := rfl
  have hwrite := exists_write_eq hreads hsettings hg "x + x"
  rw [show tokens "x + x" = ["x", "+", "x"] from rfl] at hwrite
  have haccepted : JsonReader.ofText.bool? (report "x + x") ["parse", "accepted"] = some true := by
    rw [accepted_iff hreads hwrite]
    simp only [g, options]
    cbv
  have hconflicts : JsonReader.ofText.strings? (report "x + x") ["conflicts"] = some [] := by
    rw [conflicts_iff hreads hwrite]
    simp only [g, options]
    cbv
  obtain ⟨hsound, hcomplete⟩ := report_exact hreads hsettings hg
  exact ⟨hreads, hsettings, hg, haccepted, hconflicts, hsound haccepted,
    fun w hw => (hcomplete hconflicts (.inr (by decide)) w hw).2⟩

end Analysis

end PredictiveParsing
