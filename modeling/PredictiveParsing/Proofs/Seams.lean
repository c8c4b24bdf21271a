import PredictiveParsing.Proofs.References

/-!
# Runs and seams

The runs into which a word is cut are determined by what they are: parts that are not empty and make
up the word, each of one class of characters, and no two neighbours of the same class.

So a text may be cut in two without a change of its lexemes wherever no run goes on across the seam,
that is, next to a blank or between characters of different classes. For the same reason blanks can
be put in there or taken out.

## Main definitions

* `Lexeme.AreRunsOf`: the maximal runs of a word.
* `Lexeme.Seam`: no run goes on from one text to the next.

## Main statements

* `Lexeme.splitWord_eq_iff`: a word is cut into its maximal runs.
* `Lexeme.lexemes_append_of_seam`: the lexemes on either side of a seam are read independently.
-/

namespace PredictiveParsing.Lexeme

open Text Notation

variable {word u v blanks : List Char} {runs : List (List Char)}

/-! ## Runs -/

/-- The maximal runs of a word, in order. -/
structure AreRunsOf (runs : List (List Char)) (word : List Char) : Prop where
  flatten : runs.flatten = word
  ne_nil : ∀ run ∈ runs, run ≠ []
  /-- All characters of a run belong to names, or none of them does. -/
  uniform : ∀ run ∈ runs, (∀ c ∈ run, isNameChar c) ∨ ∀ c ∈ run, isNameChar c = false
  /-- The class changes from each run to the next. -/
  alternating : runs.IsChain fun run next => ∀ c ∈ run, ∀ d ∈ next, isNameChar c ≠ isNameChar d

/-- In a run of one class every character has the class of any other. -/
theorem isNameChar_eq_of_uniform {run : List Char} {c d : Char}
    (h : (∀ c ∈ run, isNameChar c) ∨ ∀ c ∈ run, isNameChar c = false) (hc : c ∈ run)
    (hd : d ∈ run) : isNameChar c = isNameChar d := by
  rcases h with h | h <;> rw [h c hc, h d hd]

/-- A word is cut into its maximal runs, and there is no other way to cut it like this. -/
theorem splitWord_eq_iff : splitWord word = runs ↔ AreRunsOf runs word := by
  rw [splitWord_eq_splitBy, List.splitBy_eq_iff]
  constructor
  · rintro ⟨rfl, hne, hchain, hseams⟩
    have huniform := fun run hrun => isChain_isNameChar_iff.1 (hchain run hrun)
    refine ⟨rfl, fun run hrun => ne_of_mem_of_not_mem hrun hne, huniform, ?_⟩
    refine hseams.imp_of_mem_imp ?_
    rintro run next hrun hnext ⟨hne, hne', hseam⟩ c hc d hd
    -- The last character of the one run and the first of the next decide for all others.
    rw [isNameChar_eq_of_uniform (huniform run hrun) hc (List.getLast_mem hne),
      isNameChar_eq_of_uniform (huniform next hnext) hd (List.head_mem hne')]
    exact beq_eq_false_iff_ne.1 hseam
  · rintro ⟨rfl, hne, huniform, halternating⟩
    refine ⟨rfl, fun hnil => hne [] hnil rfl,
      fun run hrun => isChain_isNameChar_iff.2 (huniform run hrun), ?_⟩
    refine halternating.imp_of_mem_imp fun {run next} hrun hnext hdiffer => ?_
    have hrun := hne run hrun
    have hnext := hne next hnext
    exact ⟨hrun, hnext, beq_eq_false_iff_ne.2
      (hdiffer _ (List.getLast_mem hrun) _ (List.head_mem hnext))⟩

/-! ## Seams -/

/-- No run goes on from `u` to `v`: one of them is empty, there is a blank where they meet, or the
class of the characters changes there. -/
def Seam (u v : List Char) : Prop :=
  ∀ c ∈ u.getLast?, ∀ d ∈ v.head?, isBlank c ∨ isBlank d ∨ isNameChar c ≠ isNameChar d

/-- The lexemes on either side of a seam are read independently. -/
theorem lexemes_append_of_seam (h : Seam u v) : lexemes (u ++ v) = lexemes u ++ lexemes v := by
  by_cases hu : ∀ c ∈ u.getLast?, isBlank c
  · exact lexemes_append_of_getLast? hu v
  by_cases hv : ∀ d ∈ v.head?, isBlank d
  · exact lexemes_append_of_head? u hv
  push Not at hu hv
  obtain ⟨c, hc, hblank⟩ := hu
  obtain ⟨d, hd, hblank'⟩ := hv
  have hdiffer := ((h c hc d hd).resolve_left hblank).resolve_left hblank'
  -- Neither side has a blank at the seam, so a run of one kind of characters ends there.
  have hkinds : ∀ x ∈ u.getLast?, ∀ y ∈ v.head?, (kind x == kind y) = false := by
    intro x hx y hy
    obtain rfl := Option.mem_unique hc hx
    obtain rfl := Option.mem_unique hd hy
    rw [kind_of_not_isBlank (by simpa using hblank), kind_of_not_isBlank (by simpa using hblank')]
    simpa using hdiffer
  simp only [lexemes_eq_tokens, tokens, visibleRuns, List.splitBy_append hkinds,
    List.filter_append]

/-- Blanks can be put into a seam, or taken out of it. -/
theorem lexemes_append_blanks_of_seam (h : Seam u v) (hblanks : isBlankText blanks) :
    lexemes (u ++ (blanks ++ v)) = lexemes (u ++ v) := by
  rcases eq_or_ne blanks [] with rfl | hne
  · rfl
  have hseam : Seam u (blanks ++ v) := by
    intro c _ d hd
    rw [List.head?_append_of_ne_nil _ hne] at hd
    exact .inr (.inl (List.all_eq_true.1 hblanks d (List.mem_of_head? hd)))
  rw [lexemes_append_of_seam hseam, lexemes_blank_append hblanks, lexemes_append_of_seam h]

/-- A word is cut into its maximal runs and nothing else, and a text can be cut at every seam, with
any blanks in it, without a change of its lexemes. -/
theorem maximal_runs_and_seams :
    (∀ (word : List Char) (runs : List (List Char)),
      splitWord word = runs ↔ AreRunsOf runs word) ∧
    ∀ u v : List Char, Seam u v →
      lexemes (u ++ v) = lexemes u ++ lexemes v ∧
      ∀ blanks : List Char, isBlankText blanks →
        lexemes (u ++ (blanks ++ v)) = lexemes (u ++ v) :=
  ⟨fun _ _ => splitWord_eq_iff, fun _ _ h =>
    ⟨lexemes_append_of_seam h, fun _ => lexemes_append_blanks_of_seam h⟩⟩

/-- A seam between a letter and a sign that take several bytes each, with a lone prime behind it. -/
theorem maximal_runs_and_seams_of_text :
    let u := "b' xε".toList
    let v := "→ ' é".toList
    let blanks := "\t\u2003".toList
    Seam u v ∧ isBlankText blanks ∧
      lexemes (u ++ v) = ["b'".toList, "xε".toList] ++ ["→".toList, "é".toList] ∧
      lexemes (u ++ (blanks ++ v)) = lexemes (u ++ v) := by
  intro u v blanks
  have hseam : Seam u v := by
    intro c hc d hd
    obtain rfl : 'ε' = c := by simpa [u] using hc
    obtain rfl : '→' = d := by simpa [v] using hd
    exact .inr (.inr (by decide +kernel))
  have hblanks : isBlankText blanks := by decide
  have hu : lexemes u = ["b'".toList, "xε".toList] := by
    simp only [u]
    decide +kernel
  have hv : lexemes v = ["→".toList, "é".toList] := by
    simp only [v]
    decide +kernel
  obtain ⟨happend, hchange⟩ := maximal_runs_and_seams.2 u v hseam
  exact ⟨hseam, hblanks, by rw [happend, hu, hv], hchange blanks hblanks⟩

end PredictiveParsing.Lexeme
