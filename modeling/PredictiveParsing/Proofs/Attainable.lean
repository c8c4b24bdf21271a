import Mathlib.Computability.Primrec.List
import Mathlib.Computability.TuringMachine.StackTuringMachine
import Mathlib.Data.List.Permutation
import PredictiveParsing.Pipeline
import PredictiveParsing.Proofs.LeftFactoring
import PredictiveParsing.Proofs.LeftRecursion

/-!
# Attainable grammars

The grammars that a user of the library can get hold of: that of a text, and what the two changes
make of such a grammar, in any order and any number of times. All of them are well-formed.

## Main definitions

* `Grammar.Attainable`: the grammar of a text after any number of changes.
* `Grammar.ChangesTo`: one grammar becomes another by any number of changes.

## Main statements

* `Grammar.Attainable.wellFormed`: attainable grammars are well-formed.
* `Grammar.family_leftFactor`: left factoring keeps the language of every nonterminal.
* `Grammar.family_eliminateLeftRecursion`: without left recursion there are no new words, and none
  is lost where each nonterminal has at most one growing alternative.
* `Grammar.within_change`, `Grammar.covers_change`: what the chosen changes do to the words.
-/

namespace PredictiveParsing.Grammar

/-- A grammar of a text after any number of changes. -/
inductive Attainable : Grammar → Prop
  | ofText {text : String} {g : Grammar} (h : ofText text = .ok g) : Attainable g
  | eliminateLeftRecursion {g : Grammar} (h : Attainable g) : Attainable g.eliminateLeftRecursion
  | leftFactor {g : Grammar} (h : Attainable g) : Attainable g.leftFactor

/-- A grammar becomes another one by any number of changes. -/
inductive ChangesTo (g : Grammar) : Grammar → Prop
  | refl : ChangesTo g g
  | eliminateLeftRecursion {h : Grammar} (hgh : ChangesTo g h) :
      ChangesTo g h.eliminateLeftRecursion
  | leftFactor {h : Grammar} (hgh : ChangesTo g h) : ChangesTo g h.leftFactor

variable {g h : Grammar} {options : Options}

theorem ChangesTo.attainable (hgh : g.ChangesTo h) (hg : g.Attainable) : h.Attainable := by
  induction hgh with
  | refl => exact hg
  | eliminateLeftRecursion _ ih => exact ih.eliminateLeftRecursion
  | leftFactor _ ih => exact ih.leftFactor

/-- Attainable grammars are well-formed. -/
theorem Attainable.wellFormed (h : g.Attainable) : g.WellFormed := by
  induction h with
  | ofText h => exact wellFormed_ofText h
  | eliminateLeftRecursion _ ih => exact wellFormed_eliminateLeftRecursion ih
  | leftFactor _ ih => exact (leftFactor_correct ih).1

/-- Left factoring keeps the start symbol, the nonterminals and the words of each of them. -/
theorem family_leftFactor (hg : g.Attainable) :
    g.leftFactor.start = g.start ∧ g.names ⊆ g.leftFactor.names ∧
      ∀ name ∈ g.names, g.leftFactor.family name = g.family name := by
  obtain ⟨-, hwithin, hcovers⟩ := leftFactor_correct hg.wellFormed
  exact ⟨hwithin.start, hwithin.names, fun name hname =>
    le_antisymm (hwithin.family_le name hname) (hcovers.le_family name hname)⟩

/-- A grammar with alternatives that are doubled or begin one another, and with a primed name. -/
theorem family_leftFactor_of_text :
    let g : Grammar :=
      { rules := [⟨"S", [[.terminal "a", .terminal "b"],
            [.terminal "a", .terminal "b", .terminal "c"], [.terminal "a"],
            [.terminal "a", .terminal "b"]]⟩, ⟨"S'", [[.terminal "d"]]⟩]
        start := "S" }
    ofText "S -> a b | a b c | a | a b; S' -> d" = .ok g ∧
      g.leftFactor.names = ["S", "S'1", "S'1'", "S'"] ∧
      ∀ name ∈ ["S", "S'"], g.leftFactor.family name = g.family name := by
  intro g
  have hg : ofText "S -> a b | a b c | a | a b; S' -> d" = .ok g := rfl
  obtain ⟨-, -, hfamily⟩ := family_leftFactor (.ofText hg)
  refine ⟨hg, ?_, hfamily⟩
  simp only [g]
  cbv

/-- Taking out left recursion keeps the start symbol and the nonterminals, and none of them gets a
new word. If each of them has at most one alternative that begins with itself and has a further
symbol, then none loses a word either. -/
theorem family_eliminateLeftRecursion (hg : g.Attainable) :
    g.eliminateLeftRecursion.start = g.start ∧ g.names ⊆ g.eliminateLeftRecursion.names ∧
      (∀ name ∈ g.names, g.eliminateLeftRecursion.family name ≤ g.family name) ∧
      ((∀ r ∈ g.rules, r.growing.length ≤ 1) →
        ∀ name ∈ g.names, g.eliminateLeftRecursion.family name = g.family name) := by
  have hwithin := within_eliminateLeftRecursion hg.wellFormed
  refine ⟨hwithin.start, hwithin.names, hwithin.family_le, fun hgrow name hname => ?_⟩
  have hcovers := covers_eliminateLeftRecursion hg.wellFormed hgrow
  exact le_antisymm (hwithin.family_le name hname) (hcovers.le_family name hname)

/-- A grammar whose tails mention one another, with an alternative that is its own nonterminal, one
for the empty word, and a nonterminal that has recursive alternatives only. -/
theorem family_eliminateLeftRecursion_of_text :
    let g : Grammar :=
      { rules := [⟨"S", [[.nonterminal "S", .nonterminal "A"], [.nonterminal "S"],
            [.terminal "a"]]⟩,
          ⟨"A", [[.nonterminal "A", .nonterminal "S", .terminal "b"], [.epsilon]]⟩,
          ⟨"B", [[.nonterminal "B", .terminal "c"]]⟩]
        start := "S" }
    ofText "S -> S A | S | a; A -> A S b | ε; B -> B c" = .ok g ∧
      (∀ r ∈ g.rules, r.growing.length ≤ 1) ∧
      g.eliminateLeftRecursion.names = ["S", "S'", "A", "A'", "B", "B'"] ∧
      ∀ name ∈ ["S", "A", "B"], g.eliminateLeftRecursion.family name = g.family name := by
  intro g
  have hg : ofText "S -> S A | S | a; A -> A S b | ε; B -> B c" = .ok g := rfl
  have hgrow : ∀ r ∈ g.rules, r.growing.length ≤ 1 := by decide
  obtain ⟨-, -, -, hfamily⟩ := family_eliminateLeftRecursion (.ofText hg)
  refine ⟨hg, hgrow, ?_, hfamily hgrow⟩
  simp only [g]
  cbv

/-! ## The chosen changes -/

theorem Attainable.change (h : g.Attainable) : (g.change options).Attainable := by
  unfold Grammar.change
  cases options.eliminateLeftRecursion <;> cases options.leftFactor
  · exact h
  · exact h.leftFactor
  · exact h.eliminateLeftRecursion
  · exact h.eliminateLeftRecursion.leftFactor

/-- Whatever is chosen, no nonterminal gets a new word. -/
theorem within_change (hg : g.WellFormed) : (g.change options).Within g := by
  have helim := within_eliminateLeftRecursion hg
  unfold Grammar.change
  cases options.eliminateLeftRecursion <;> cases options.leftFactor
  · exact .refl g
  · exact (leftFactor_correct hg).2.1
  · exact helim
  · exact (leftFactor_correct (wellFormed_eliminateLeftRecursion hg)).2.1.trans helim

/-- No word is lost if left recursion stays or no nonterminal has two growing alternatives. -/
theorem covers_change (hg : g.WellFormed)
    (h : options.eliminateLeftRecursion = false ∨ ∀ r ∈ g.rules, r.growing.length ≤ 1) :
    (g.change options).Covers g := by
  unfold Grammar.change
  cases helim : options.eliminateLeftRecursion with
  | false =>
    cases options.leftFactor
    · exact .refl g
    · exact (leftFactor_correct hg).2.2
  | true =>
    have hcovers := covers_eliminateLeftRecursion hg (h.resolve_left (by simp [helim]))
    cases options.leftFactor
    · exact hcovers
    · exact (leftFactor_correct (wellFormed_eliminateLeftRecursion hg)).2.2.trans hcovers

end PredictiveParsing.Grammar
