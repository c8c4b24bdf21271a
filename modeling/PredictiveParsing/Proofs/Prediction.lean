import PredictiveParsing.Proofs.Actions
import PredictiveParsing.Proofs.Exactness
import PredictiveParsing.Proofs.PanicMode

/-!
# One lookahead decides

In a table without conflicts, the stack and the next token determine each replacement. So a word has
a single leftmost derivation. For the same reason an error comes at the earliest token: each word of
the grammar that goes on from the consumed tokens with the same lookahead has led the parser to the
same stack, which derives the rest of this word.

## Main definitions

* `Grammar.Spells`: the replacements of a leftmost derivation of a word.
* `Grammar.Foresees`: the stack derives the rest of each word that goes on like the input.

## Main statements

* `Grammar.spells_unique_of_isLL1`: without conflicts, a word has at most one leftmost derivation.
* `Grammar.error_at_earliest_token`: without conflicts, no word goes on beyond an error.
-/

namespace PredictiveParsing

namespace Grammar

variable {g : Grammar} {es fs : List (String × Alternative)} {u : List Symbol}
  {ws zs tokens : List String}

/-! ## One derivation for each word -/

/-- The rest of the input is taken apart in one way. -/
theorem Viable.unique (hg : g.WellFormed) (hll : g.table.isLL1) (h : g.Viable es u ws)
    (h' : g.Parses fs u ws) : es = fs := by
  obtain ⟨hparses, hfollows⟩ := h
  induction hparses generalizing fs with
  | nil =>
    cases h'
    rfl
  | terminal _ ih =>
    cases h' with
    | terminal h' => exact ih h' hfollows.tail
  | epsilon _ ih =>
    cases h' with
    | epsilon h' => exact ih h' hfollows.tail
  | @nonterminal es name p u ws hp hparses ih =>
    cases h' with
    | @nonterminal fs _ q _ _ hq h' =>
      -- Both replacements are by the alternative in the cell.
      obtain ⟨p', es', hes, hcell, -⟩ := Viable.expand hg hll ⟨.nonterminal hp hparses, hfollows⟩
      obtain ⟨q', fs', hfs, hcell', -⟩ := Viable.expand hg hll ⟨.nonterminal hq h', hfollows⟩
      obtain ⟨⟨-, rfl⟩, -⟩ : (name = name ∧ p = p') ∧ es = es' := by simpa using hes
      obtain ⟨⟨-, rfl⟩, -⟩ : (name = name ∧ q = q') ∧ fs = fs' := by simpa using hfs
      obtain rfl := Option.some.inj (hcell.symm.trans hcell')
      rw [ih h' (hfollows.expand hg hp)]

/-- The replacements of a leftmost derivation of a word from the start symbol. -/
def Spells (g : Grammar) (es : List (String × Alternative)) (ws : List String) : Prop :=
  ∃ v, g.Leftmost [.nonterminal g.start] es v ∧ eraseEpsilon v = ws.map .terminal

theorem mem_language_iff_spells : ws ∈ g.language ↔ ∃ es, g.Spells es ws := by
  constructor
  · intro h
    obtain ⟨es, hes⟩ := exists_parses h
    exact ⟨es, parses_iff_leftmost.1 hes⟩
  · rintro ⟨es, v, hv, hws⟩
    exact ⟨v, hv.derives, hws⟩

/-- If the table of a grammar from its own sets is without conflicts, then all leftmost derivations
of a word make the same replacements in the same order. There is one for each word that is
derived. -/
theorem spells_unique_of_isLL1 (hg : g.Attainable) (hll : g.table.isLL1 = true)
    (ws : List String) :
    (ws ∈ g.language ↔ ∃ es, g.Spells es ws) ∧
      ∀ es fs, g.Spells es ws → g.Spells fs ws → es = fs := by
  refine ⟨mem_language_iff_spells, fun es fs hes hfs => ?_⟩
  have hviable : g.Viable es [.nonterminal g.start] ws :=
    ⟨parses_iff_leftmost.2 hes, follows_start hg.wellFormed⟩
  exact hviable.unique hg.wellFormed hll (parses_iff_leftmost.2 hfs)

/-- The empty word is chosen by what follows. -/
theorem spells_unique_of_isLL1_of_text :
    let g : Grammar :=
      { rules := [⟨"S", [[.nonterminal "A", .terminal "b"]]⟩,
          ⟨"A", [[.terminal "a", .nonterminal "A"], [.epsilon]]⟩]
        start := "S" }
    let es : List (String × Alternative) :=
      [("S", [.nonterminal "A", .terminal "b"]), ("A", [.terminal "a", .nonterminal "A"]),
        ("A", [.epsilon])]
    ofText "S -> A b; A -> a A | ε" = .ok g ∧ g.table.isLL1 = true ∧ g.Spells es ["a", "b"] ∧
      ∀ fs, g.Spells fs ["a", "b"] → es = fs := by
  intro g es
  have hg : ofText "S -> A b; A -> a A | ε" = .ok g := rfl
  have hll : g.table.isLL1 = true := by
    simp only [g]
    cbv
  have hes : g.Spells es ["a", "b"] := by
    refine parses_iff_leftmost.1 (.nonterminal (by decide) (.nonterminal (by decide) ?_))
    exact .terminal (.nonterminal (by decide) (.epsilon (.terminal .nil)))
  exact ⟨hg, hll, hes, fun fs => (spells_unique_of_isLL1 (.ofText hg) hll _).2 es fs hes⟩

/-! ## Errors at the earliest token -/

/-- The stack of a run in abort mode derives the rest of each word that goes on from the consumed
tokens with the same lookahead. -/
structure Foresees (g : Grammar) (tokens : List String) (c : Configuration) : Prop where
  errors : c.errors = []
  grown : c.Grown g.table .abort
  tokens : c.consumed ++ c.input = tokens
  viable : ∀ zs, lookahead zs = lookahead c.input → c.consumed ++ zs ∈ g.language →
    ∃ es, g.Viable es c.stack zs

namespace Foresees

open PredictiveParsing.Configuration

variable {c d : Configuration} {r : Run}

theorem initial (hg : g.WellFormed) (tokens : List String) :
    g.Foresees tokens (Configuration.initial g.table tokens) where
  errors := rfl
  grown := .initial g.table .abort tokens
  tokens := rfl
  viable zs _ hzs := by
    obtain ⟨es, hes⟩ := exists_parses hzs
    have hstart : g.table.grammar.start = g.start := by simp [table, firstSets]
    exact ⟨es, by simpa [Configuration.initial, hstart] using ⟨hes, follows_start hg⟩⟩

/-- A move in abort mode keeps all words in sight. -/
theorem transition (hg : g.WellFormed) (hll : g.table.isLL1) (hc : g.Foresees tokens c)
    (h : Configuration.Transition g.table .abort c (.moved d)) : g.Foresees tokens d := by
  have herrors := h.errors_eq_of_abort.trans hc.errors
  have hgrown := hc.grown.transition h
  have htokens := h.consumed_append_input.trans hc.tokens
  cases h with
  | @popEpsilon rest hstack =>
    have hsame : ({ c with stack := rest }.record .popEpsilon).consumed = c.consumed :=
      consumed_record_of_none rfl
    refine ⟨herrors, hgrown, htokens, fun zs hnext hzs => ?_⟩
    obtain ⟨es, hes⟩ := hc.viable zs hnext (hsame ▸ hzs)
    exact ⟨es, (hstack ▸ hes).popEpsilon⟩
  | @expand name rest p hstack _ hcell =>
    have hsame : (push name p
        { c with stack := rest, pending := c.unfinished rest.length }).consumed = c.consumed :=
      consumed_record_of_none rfl
    refine ⟨herrors, hgrown, htokens, fun zs hnext hzs => ?_⟩
    obtain ⟨es, hes⟩ := hc.viable zs hnext (hsame ▸ hzs)
    obtain ⟨p, fs, -, hcell', hfs⟩ := (hstack ▸ hes).expand hg hll
    rw [hnext] at hcell'
    obtain rfl := Option.some.inj (hcell.symm.trans hcell')
    exact ⟨fs, hfs⟩
  | @consume a rest more hstack hinput =>
    have hmore : ({ c with stack := rest, input := more, pending := [] }.record
        (.consume a)).consumed = c.consumed ++ [a] := consumed_record ..
    refine ⟨herrors, hgrown, htokens, fun zs _ hzs => ?_⟩
    -- Whatever comes next, the words in question have gone on with the consumed token.
    rw [hmore, ← List.append_cons] at hzs
    obtain ⟨es, hes⟩ := hc.viable (a :: zs) (by rw [hinput]; rfl) hzs
    obtain ⟨zs', hcons, hviable⟩ := (hstack ▸ hes).consume
    obtain ⟨-, rfl⟩ := List.cons.inj hcons
    exact ⟨es, hviable⟩
  | skip hmode => cases hmode
  | drop hmode => cases hmode

/-- Where the run stops at an error, there is no word left in sight. -/
theorem not_mem_language (hg : g.WellFormed) (hll : g.table.isLL1) (hc : g.Foresees tokens c)
    (h : Configuration.Transition g.table .abort c (.stopped r)) (hr : r.outcome ≠ .accepted) :
    r.consumed ++ r.final.input = tokens ∧
      ∀ zs, lookahead zs = lookahead r.final.input → r.consumed ++ zs ∉ g.language := by
  have herrors := h.errors_final.trans hc.errors
  obtain ⟨hconsumed, hinput⟩ := h.consumed_final
  rw [hconsumed, hinput]
  refine ⟨hc.tokens, fun zs hnext hzs => ?_⟩
  obtain ⟨es, hes⟩ := hc.viable zs hnext hzs
  cases h with
  | accept => exact hr (Run.outcome_eq_accepted.2 ⟨herrors, rfl⟩)
  | endMarker => exact hr (Run.outcome_eq_accepted.2 ⟨herrors, rfl⟩)
  | incomplete hstack hne =>
    -- The stack derives the empty word only, and there is a token.
    obtain rfl := (hstack ▸ hes).input_eq_nil
    obtain ⟨token, more, hcons⟩ := List.exists_cons_of_ne_nil hne
    simp [hcons, lookahead] at hnext
  | repetition hstack hold =>
    obtain ⟨-, -, name, -, -, hrepeats, -⟩ := hc.grown.endless hstack hold
    exact not_repeats hg hll hrepeats
  | noRule _ hstack _ hcell =>
    obtain ⟨p, -, -, hcell', -⟩ := (hstack ▸ hes).expand hg hll
    simp [hnext, hcell] at hcell'
  | mismatch _ hstack htop hne => exact hne (((hstack ▸ hes).eq_lookahead htop).trans hnext)

end Foresees

/-- If the table of a grammar from its own sets is without conflicts, a run in abort mode that does
not accept stops at the earliest token. If a token comes next there, no word of the grammar begins
with the consumed tokens and this one. If none does, the consumed tokens, which are then the whole
input, are no word. -/
theorem error_at_earliest_token (hg : g.Attainable) (hll : g.table.isLL1 = true)
    (tokens : List String) (hr : (g.table.parse .abort tokens).outcome ≠ .accepted) :
    let r := g.table.parse .abort tokens
    r.consumed ++ r.final.input = tokens ∧
      (∀ a, lookahead r.final.input = .terminal a → ∀ w ∈ g.language, ¬ r.consumed ++ [a] <+: w) ∧
      (lookahead r.final.input = .endMarker → r.consumed ∉ g.language) := by
  intro r
  have hforesees := Foresees.initial hg.wellFormed tokens
  obtain ⟨htokens, hnone⟩ : r.consumed ++ r.final.input = tokens ∧
      ∀ zs, lookahead zs = lookahead r.final.input → r.consumed ++ zs ∉ g.language :=
    Configuration.run_induction
      (P := g.Foresees tokens)
      (Q := fun r => r.outcome ≠ .accepted → r.consumed ++ r.final.input = tokens ∧
        ∀ zs, lookahead zs = lookahead r.final.input → r.consumed ++ zs ∉ g.language)
      (fun _ _ hc => hc.transition hg.wellFormed hll)
      (fun _ _ hc => hc.not_mem_language hg.wellFormed hll) hforesees hr
  refine ⟨htokens, fun a ha w hw hprefix => ?_, fun hend hword => ?_⟩
  · obtain ⟨zs, rfl⟩ := hprefix
    exact hnone (a :: zs) ha.symm (by simpa using hw)
  · exact hnone [] hend.symm (by simpa using hword)

/-- A token that would do if another alternative had been chosen for the one before, and an input
that is too short. -/
theorem error_at_earliest_token_of_text :
    let g : Grammar :=
      { rules := [⟨"S", [[.nonterminal "A", .terminal "b"], [.terminal "c", .terminal "d"]]⟩,
          ⟨"A", [[.terminal "a", .nonterminal "A"], [.epsilon]]⟩]
        start := "S" }
    let r := g.table.parse .abort ["a", "d"]
    let s := g.table.parse .abort ["a", "a"]
    ofText "S -> A b | c d; A -> a A | ε" = .ok g ∧ g.table.isLL1 = true ∧
      r.outcome = .rejected (.noRule "A" (.terminal "d")) ∧
      s.outcome = .rejected (.noRule "A" .endMarker) ∧
      (∀ w ∈ g.language, ¬ ["a", "d"] <+: w) ∧ ["a", "a"] ∉ g.language := by
  intro g r s
  have hg : ofText "S -> A b | c d; A -> a A | ε" = .ok g := rfl
  have hll : g.table.isLL1 = true := by
    simp only [g]
    cbv
  have hr : r.outcome = .rejected (.noRule "A" (.terminal "d")) := by
    simp only [r, g]
    cbv
  have hs : s.outcome = .rejected (.noRule "A" .endMarker) := by
    simp only [s, g]
    cbv
  have hrejected : ∀ {e}, Outcome.rejected e ≠ .accepted := by simp
  obtain ⟨-, hnext, -⟩ := error_at_earliest_token (.ofText hg) hll ["a", "d"] (hr ▸ hrejected)
  obtain ⟨-, -, hend⟩ := error_at_earliest_token (.ofText hg) hll ["a", "a"] (hs ▸ hrejected)
  have hrest : r.consumed = ["a"] ∧ lookahead r.final.input = .terminal "d" := by
    simp only [r, g]
    cbv
  have hall : s.consumed = ["a", "a"] ∧ lookahead s.final.input = .endMarker := by
    simp only [s, g]
    cbv
  have hnext : ∀ w ∈ g.language, ¬ r.consumed ++ ["d"] <+: w := hnext "d" hrest.2
  have hend : s.consumed ∉ g.language := hend hall.2
  rw [hrest.1] at hnext
  rw [hall.1] at hend
  exact ⟨hg, hll, hr, hs, hnext, hend⟩

end Grammar

end PredictiveParsing
