import PredictiveParsing.Proofs.Actions
import PredictiveParsing.Proofs.PanicMode
import PredictiveParsing.Proofs.Soundness

/-!
# The state in which abort mode stops

Abort mode stops at the first error. Nothing has gone wrong before, so the expansions up to there
derive the consumed tokens together with what is on the stack. The symbol at which the parser fails
has been taken from the stack and is put back, and the next token has not been taken. So the error
can be checked against what it says about the stack, the input and the table.

## Main definitions

* `SyntaxError.Fits`: an error says what is the case where a run has stopped.

## Main statements

* `Configuration.Transition.fits`: the error at which a run stops fits the configuration.
* `Table.abort_error_state`: what abort mode leaves behind when it stops at an error.
-/

namespace PredictiveParsing

/-- An error says what is the case in a configuration: which symbol is on top of the stack, which
symbol comes next in the input, and why this is an error. -/
def SyntaxError.Fits (t : Table) (c : Configuration) : SyntaxError → Prop
  | noRule name x => c.stack.head? = some (.nonterminal name) ∧
      (inputSymbols c.input).head? = some x ∧ t.cell? name x = none
  | mismatch s x => c.stack.head? = some s ∧ (∃ a, s = .terminal a) ∧
      (inputSymbols c.input).head? = some x ∧ x ≠ s
  | leftRecursion name x => c.stack.head? = some (.nonterminal name) ∧
      (inputSymbols c.input).head? = some x
  | incompleteConsumption remaining => c.stack = [] ∧ remaining = c.input ∧ remaining ≠ []

theorem head?_inputSymbols (tokens : List String) :
    (inputSymbols tokens).head? = some (lookahead tokens) := by
  cases tokens <;> rfl

namespace Configuration

variable {t : Table} {mode : Recovery} {c : Configuration} {r : Run} {e : SyntaxError}

/-- The error at which a run stops fits the configuration. An end marker on the stack would be
reported like a terminal, but there is none. -/
theorem Transition.fits (hend : .endMarker ∉ c.stack) (h : Transition t mode c (.stopped r))
    (hr : r.failure = some e) : e.Fits t r.final := by
  cases h with
  | accept => cases hr
  | endMarker => cases hr
  | incomplete hstack hinput =>
    obtain rfl := Option.some.inj hr
    exact ⟨hstack, rfl, hinput⟩
  | repetition hstack =>
    obtain rfl := Option.some.inj hr
    exact ⟨congrArg List.head? hstack, head?_inputSymbols c.input⟩
  | noRule _ _ _ hcell =>
    obtain rfl := Option.some.inj hr
    exact ⟨rfl, head?_inputSymbols c.input, hcell⟩
  | @mismatch top rest _ hstack htop hne =>
    obtain rfl := Option.some.inj hr
    refine ⟨rfl, ?_, head?_inputSymbols c.input, hne.symm⟩
    cases top with
    | terminal a => exact ⟨a, rfl⟩
    | endMarker => exact absurd (by simp [hstack]) hend
    | _ => simp [Symbol.isTerminal] at htop

end Configuration

namespace Traced

open PredictiveParsing.Configuration

variable {g : Grammar} {t : Table} {mode : Recovery} {tokens : List String} {past : List Symbol}
  {c : Configuration} {r : Run} {e : SyntaxError}

/-- The symbol at which the parser fails is put back. -/
theorem putBack {top : Symbol} {rest : List Symbol} {pending : List Expansion}
    (hc : Traced g tokens past c) (hstack : c.stack = top :: rest) (e : SyntaxError) :
    Traced g tokens past ({ c with stack := rest, pending := pending }.failAt top e).final where
  leftmost := by
    simpa [failAt, record, expansions, Action.expansion?, hstack] using hc.leftmost
  settled := hc.settled
  tokens := hc.tokens
  tree := by
    simpa [failAt, record, expansions, Action.expansion?] using hc.tree

/-- Where a run stops at an error, the derivation is as far as before. -/
theorem failed (hc : Traced g tokens past c) (h : Transition t mode c (.stopped r))
    (hr : r.failure = some e) : Traced g tokens past r.final := by
  cases h with
  | accept => cases hr
  | endMarker => cases hr
  | incomplete => exact hc.recorded rfl
  | repetition => exact hc.recorded rfl
  | noRule _ hstack => exact hc.putBack hstack _
  | mismatch _ hstack => exact hc.putBack hstack _

/-- What has been taken from the stack stands for the consumed tokens. -/
theorem eraseEpsilon_eq {taken : List String} (hc : Traced g tokens past c)
    (htokens : taken ++ c.input = tokens) : eraseEpsilon past = taken.map .terminal := by
  have hsame := hc.tokens
  rw [← htokens, List.map_append] at hsame
  exact List.append_cancel_right hsame

end Traced

namespace Table

open PredictiveParsing.Configuration

/-- If a run in abort mode does not accept its input, it stops at a single error, which fits the
stack and the input as the run leaves them. The consumed tokens and those that are left are the
input, and the expansions of the run, in order, derive from the start symbol what stands for the
consumed tokens, with the stack behind it. The `FOLLOW` sets of the table may be those of any
grammar. -/
theorem abort_error_state {g : Grammar} (hg : g.Attainable) (follow : FollowSets)
    (tokens : List String)
    (hr : ((build g.firstSets follow).parse .abort tokens).outcome ≠ .accepted) :
    let t := build g.firstSets follow
    let r := t.parse .abort tokens
    (∃ e, r.outcome = .rejected e ∧ e.Fits t r.final) ∧ r.consumed ++ r.final.input = tokens ∧
      ∃ past, g.Leftmost [.nonterminal g.start] r.expansions (past ++ r.final.stack) ∧
        eraseEpsilon past = r.consumed.map .terminal := by
  intro t r
  have hcell : ∀ name x p, t.cell? name x = some p → p ∈ g.alternatives name :=
    fun _ _ _ => mem_alternatives_of_cell? hg.wellFormed
  refine run_induction
    (P := fun c => c.errors = [] ∧ c.consumed ++ c.input = tokens ∧ ∃ past, Traced g tokens past c)
    (Q := fun r => r.outcome ≠ .accepted →
      (∃ e, r.outcome = .rejected e ∧ e.Fits t r.final) ∧ r.consumed ++ r.final.input = tokens ∧
        ∃ past, g.Leftmost [.nonterminal g.start] r.expansions (past ++ r.final.stack) ∧
          eraseEpsilon past = r.consumed.map .terminal)
    (fun c d hc hmove => ?_) (fun c r hc hstop hr => ?_)
    ⟨rfl, rfl, [], .initial t tokens grammar_build⟩ hr
  · obtain ⟨herrors, htokens, past, hpast⟩ := hc
    have herrors := hmove.errors_eq_of_abort.trans herrors
    exact ⟨herrors, hmove.consumed_append_input.trans htokens,
      hpast.transition hcell hmove herrors⟩
  · obtain ⟨herrors, htokens, past, hpast⟩ := hc
    have herrors := hstop.errors_final.trans herrors
    cases hfailure : r.failure with
    | none => exact absurd (Run.outcome_eq_accepted.2 ⟨herrors, hfailure⟩) hr
    | some e =>
      obtain ⟨hconsumed, hinput⟩ := hstop.consumed_final
      rw [← hconsumed, ← hinput] at htokens
      have hlast := hpast.failed hstop hfailure
      have hend := hpast.endMarker_not_mem hg.wellFormed
      exact ⟨⟨e, by simp [Run.outcome, herrors, hfailure], hstop.fits hend hfailure⟩, htokens,
        past, hlast.leftmost, hlast.eraseEpsilon_eq htokens⟩

/-- No alternative begins with the token that comes next, and a word is found before the tokens are
used up. -/
theorem abort_error_state_of_text :
    let g : Grammar :=
      { rules := [⟨"S", [[.nonterminal "A", .terminal "b"]]⟩,
          ⟨"A", [[.terminal "a", .nonterminal "A"], [.epsilon]]⟩]
        start := "S" }
    let r := g.table.parse .abort ["a", "c"]
    let s := g.table.parse .abort ["b", "b"]
    Grammar.ofText "S -> A b; A -> a A | ε" = .ok g ∧
      r.outcome = .rejected (.noRule "A" (.terminal "c")) ∧
      (∃ e, r.outcome = .rejected e ∧ e.Fits g.table r.final) ∧
      (∃ past, g.Leftmost [.nonterminal "S"] r.expansions
        (past ++ [.nonterminal "A", .terminal "b"]) ∧ eraseEpsilon past = [.terminal "a"]) ∧
      s.outcome = .rejected (.incompleteConsumption ["b"]) ∧
      (∃ e, s.outcome = .rejected e ∧ e.Fits g.table s.final) ∧
      s.consumed ++ ["b"] = ["b", "b"] := by
  intro g r s
  have hg : Grammar.ofText "S -> A b; A -> a A | ε" = .ok g := rfl
  have hr : r.outcome = .rejected (.noRule "A" (.terminal "c")) ∧
      r.final.stack = [.nonterminal "A", .terminal "b"] ∧ r.consumed = ["a"] := by
    simp only [r, g]
    cbv
    decide
  have hs : s.outcome = .rejected (.incompleteConsumption ["b"]) ∧ s.final.input = ["b"] := by
    simp only [s, g]
    cbv
  have hrejected : ∀ {e}, Outcome.rejected e ≠ .accepted := by simp
  obtain ⟨hfits, -, past, hpast, htaken⟩ := abort_error_state (.ofText hg)
    g.firstSets.followSets ["a", "c"] (hr.1 ▸ hrejected)
  obtain ⟨hfits', htokens, -⟩ := abort_error_state (.ofText hg)
    g.firstSets.followSets ["b", "b"] (hs.1 ▸ hrejected)
  have hpast : g.Leftmost [.nonterminal "S"] r.expansions (past ++ r.final.stack) := hpast
  have htaken : eraseEpsilon past = r.consumed.map .terminal := htaken
  have htokens : s.consumed ++ s.final.input = ["b", "b"] := htokens
  rw [hr.2.1] at hpast
  rw [hr.2.2] at htaken
  rw [hs.2] at htokens
  exact ⟨hg, hr.1, hfits, ⟨past, hpast, htaken⟩, hs.1, hfits', htokens⟩

end Table

end PredictiveParsing
