import PredictiveParsing.Pipeline
import PredictiveParsing.Proofs.Language
import PredictiveParsing.Proofs.Lexemes
import PredictiveParsing.Proofs.WellFormed

/-!
# Words of a grammar as inputs

The tokens of an input are its words. A terminal of a grammar that is read from a text is a lexeme
of this text, so it has no blank in it and is not empty. So every list of such terminals can be
written as an input.

## Main statements

* `Grammar.exists_tokens_eq`: every word of a grammar that is read from a text is that of an input.
-/

namespace PredictiveParsing

open Text

namespace Grammar

variable {g : Grammar} {u v : List Symbol} {s : Symbol}

/-- A symbol of a derived form was there before or comes from an alternative. -/
theorem Derives.mem_or_mem_occurrences (h : g.Derives u v) (hs : s ∈ v) :
    s ∈ u ∨ s ∈ g.occurrences := by
  induction h with
  | refl => exact .inl hs
  | tail _ hstep ih =>
    obtain ⟨before, after, hp⟩ := hstep
    simp only [List.mem_append, List.mem_cons] at ih hs
    rcases hs with hs | hs | hs
    · exact ih (.inl hs)
    · exact .inr (mem_occurrences_of_mem_alternatives hp hs)
    · exact ih (.inr (.inr hs))

theorem terminal_mem_occurrences {w : List String} (hw : w ∈ g.language) {a : String}
    (ha : a ∈ w) : .terminal a ∈ g.occurrences := by
  obtain ⟨v, hv, hw⟩ := hw
  have hmem : .terminal a ∈ v := by
    have : .terminal a ∈ eraseEpsilon v := hw ▸ List.mem_map_of_mem ha
    exact List.mem_of_mem_filter this
  simpa using hv.mem_or_mem_occurrences hmem

theorem isWord_of_mem_language {text : String} (hg : ofText text = .ok g) {w : List String}
    (hw : w ∈ g.language) {a : String} (ha : a ∈ w) : IsWord a.toList := by
  obtain ⟨r, hr, p, hp, hs⟩ := mem_occurrences.1 (terminal_mem_occurrences hw ha)
  obtain ⟨d, hd, lexemes, hlexemes, lexeme, hlexeme, hsymbol⟩ :=
    exists_lexeme_of_mem_rulesOf ((ofText_eq_ok hg).2.1 ▸ hr) hp hs
  obtain ⟨rfl, -⟩ := Symbol.ofLexeme_eq_terminal hsymbol
  exact (Declaration.isLexeme_of_mem_ofText hd hlexemes hlexeme).word

theorem exists_tokens_eq_of_isWord {w : List String} (h : ∀ a ∈ w, IsWord a.toList) :
    ∃ input, Analysis.tokens input = w := by
  suffices ∃ cs, words cs = w.map String.toList by
    obtain ⟨cs, hcs⟩ := this
    exact ⟨String.ofList cs, by simp [Analysis.tokens, hcs, Function.comp_def]⟩
  induction w with
  | nil => exact ⟨[], rfl⟩
  | cons a w ih =>
    obtain ⟨cs, hcs⟩ := ih fun b hb => h b (List.mem_cons_of_mem _ hb)
    have hblank : isBlank ' ' := by decide
    exact ⟨a.toList ++ ' ' :: cs, by
      simp [words_append _ hblank, (h a List.mem_cons_self).words_eq, hcs]⟩

/-- Every word of a grammar that is read from a text is that of an input. -/
theorem exists_tokens_eq {text : String} (hg : ofText text = .ok g) {w : List String}
    (hw : w ∈ g.language) : ∃ input, Analysis.tokens input = w :=
  exists_tokens_eq_of_isWord fun _ => isWord_of_mem_language hg hw

end Grammar

end PredictiveParsing
