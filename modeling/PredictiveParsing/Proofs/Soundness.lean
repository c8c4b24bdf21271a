import PredictiveParsing.Proofs.Cells
import PredictiveParsing.Proofs.Leftmost
import PredictiveParsing.Proofs.Transitions

/-!
# Accepted inputs are derived

As long as nothing has gone wrong, the symbols that the parser has taken from its stack, together
with those that are still on it, are a form that the recorded expansions derive from the start
symbol, always at the leftmost nonterminal. The tokens consumed so far are the terminals among the
former. So when both the stack and the input are used up, the expansions derive the tokens. Which
symbols the expansions are chosen for plays no part in this: the alternatives need only be those of
the grammar, and `FOLLOW` sets, conflicts and cells filled twice do not matter.

## Main definitions

* `Run.expansions`: the expansions of a run, in order.
* `Traced`: the expansions so far derive what has been taken from the stack and what is left on it.

## Main statements

* `Traced.transition`: a move without an error preserves this.
* `Table.parse_accepted_leftmost`: the expansions of an accepting run derive the input.
-/

namespace PredictiveParsing

/-- The nonterminal that an action expands, with the alternative in its place. -/
def Action.expansion? : Action → Option (String × Alternative)
  | .expand name p => some (name, p)
  | _ => none

/-- The expansions up to a configuration, in order. -/
def Configuration.expansions (c : Configuration) : List (String × Alternative) :=
  c.trace.reverse.filterMap fun s => s.action.expansion?

/-- The expansions of a run, in order. -/
def Run.expansions (r : Run) : List (String × Alternative) :=
  r.steps.filterMap fun s => s.action.expansion?

/-- The edge of the parse tree for an expansion. -/
def TreeEdge.ofExpansion (e : String × Alternative) : TreeEdge := ⟨e.1, e.2.map Symbol.name⟩

theorem Run.outcome_eq_accepted {r : Run} :
    r.outcome = .accepted ↔ r.final.errors = [] ∧ r.failure = none := by
  unfold Run.outcome
  split <;> grind

/-! ## The derivation so far -/

/-- What the parser has taken from its stack and what is left on it are derived by its expansions,
and the tokens that it has consumed are the terminals of the former. -/
structure Traced (g : Grammar) (tokens : List String) (past : List Symbol) (c : Configuration) :
    Prop where
  leftmost : g.Leftmost [.nonterminal g.start] c.expansions (past ++ c.stack)
  settled : ∀ s ∈ past, s.nonterminal? = none
  tokens : eraseEpsilon past ++ c.input.map .terminal = tokens.map .terminal
  tree : c.tree.reverse = c.expansions.map TreeEdge.ofExpansion

namespace Traced

open PredictiveParsing.Configuration

variable {g : Grammar} {t : Table} {mode : Recovery} {tokens : List String} {past : List Symbol}
  {c d : Configuration}

theorem initial (t : Table) (tokens : List String) (h : t.grammar = g) :
    Traced g tokens [] (Configuration.initial t tokens) := by
  subst h
  exact ⟨.refl _, by simp, rfl, rfl⟩

/-- A symbol that is no nonterminal is taken from the stack, together with the token that it stands
for, if any. -/
theorem take {s : Symbol} {rest : List Symbol} {more : List String} {pending : List Expansion}
    {a : Action} (hc : Traced g tokens past c) (hstack : c.stack = s :: rest)
    (hs : s.nonterminal? = none)
    (hinput : c.input.map .terminal = eraseEpsilon [s] ++ more.map .terminal)
    (ha : a.expansion? = none) :
    Traced g tokens (past ++ [s])
      ({ c with stack := rest, input := more, pending := pending }.record a) where
  leftmost := by
    simpa [record, expansions, ha, hstack] using hc.leftmost
  settled x hx := by
    rcases List.mem_append.1 hx with hx | hx
    · exact hc.settled x hx
    · rwa [List.mem_singleton.1 hx]
  tokens := by
    rw [← hc.tokens, hinput]
    simp [record]
  tree := by
    simpa [record, expansions, ha] using hc.tree

theorem expand {name : String} {rest : List Symbol} {p : Alternative}
    (hc : Traced g tokens past c) (hstack : c.stack = .nonterminal name :: rest)
    (hp : p ∈ g.alternatives name) :
    Traced g tokens past
      ({ c with stack := rest, pending := c.unfinished rest.length }.push name p) where
  leftmost := by
    have := (hstack ▸ hc.leftmost).snoc hc.settled hp
    simpa [push, record, expansions, Action.expansion?] using this
  settled := hc.settled
  tokens := hc.tokens
  tree := by
    simpa [push, record, expansions, Action.expansion?, TreeEdge.ofExpansion] using hc.tree

/-- An entry of the trace that is no expansion changes nothing. -/
theorem recorded {a : Action} (hc : Traced g tokens past c) (ha : a.expansion? = none) :
    Traced g tokens past (c.record a) where
  leftmost := by simpa [record, expansions, ha] using hc.leftmost
  settled := hc.settled
  tokens := hc.tokens
  tree := by simpa [record, expansions, ha] using hc.tree

/-- A move without an error goes on with the derivation. -/
theorem transition (hcell : ∀ name x p, t.cell? name x = some p → p ∈ g.alternatives name)
    (hc : Traced g tokens past c) (h : Transition t mode c (.moved d)) (hd : d.errors = []) :
    ∃ past', Traced g tokens past' d := by
  cases h with
  | popEpsilon hstack => exact ⟨_, hc.take hstack rfl rfl rfl⟩
  | expand hstack _ hp => exact ⟨_, hc.expand hstack (hcell _ _ _ hp)⟩
  | consume hstack hinput => exact ⟨_, hc.take hstack rfl (by simp [hinput]) rfl⟩
  | skip => simp [errors_skipTo, note] at hd
  | drop => simp [note] at hd

/-- There is no end marker on the stack, as none is derived. -/
theorem endMarker_not_mem (hg : g.WellFormed) (hc : Traced g tokens past c) :
    .endMarker ∉ c.stack := fun h =>
  hg.endMarker_not_mem_of_derives hc.leftmost.derives (by simp) (List.mem_append_right _ h)

/-- A run stops without a failure when stack and input are used up. -/
theorem stopped {r : Run} (hg : g.WellFormed) (hc : Traced g tokens past c)
    (h : Transition t mode c (.stopped r)) (hr : r.failure = none) :
    Traced g tokens past r.final ∧ r.final.stack = [] ∧ r.final.input = [] := by
  cases h with
  | accept hstack hinput => exact ⟨hc.recorded rfl, hstack, hinput⟩
  | endMarker hstack => exact absurd (by simp [hstack]) (hc.endMarker_not_mem hg)
  | incomplete => simp at hr
  | repetition => simp at hr
  | noRule => simp [failAt] at hr
  | mismatch => simp [failAt] at hr

end Traced

namespace Table

variable {g : Grammar} {follow : FollowSets} {mode : Recovery} {tokens : List String}

theorem parse_accepted_traced (hg : g.WellFormed)
    (h : ((build g.firstSets follow).parse mode tokens).outcome = .accepted) :
    ∃ past, Traced g tokens past ((build g.firstSets follow).parse mode tokens).final ∧
      ((build g.firstSets follow).parse mode tokens).final.stack = [] ∧
      ((build g.firstSets follow).parse mode tokens).final.input = [] := by
  refine Configuration.run_induction
    (P := fun c => c.errors = [] → ∃ past, Traced g tokens past c)
    (Q := fun r => r.outcome = .accepted →
      ∃ past, Traced g tokens past r.final ∧ r.final.stack = [] ∧ r.final.input = [])
    (fun c d hc hmove hd => ?_) (fun c r hc hstop hr => ?_) ?_ h
  · obtain ⟨past, hc⟩ := hc (hmove.errors_eq_nil hd)
    exact hc.transition (fun _ _ _ => mem_alternatives_of_cell? hg) hmove hd
  · obtain ⟨herrors, hfailure⟩ := Run.outcome_eq_accepted.1 hr
    obtain ⟨past, hc⟩ := hc (hstop.errors_final ▸ herrors)
    exact ⟨past, hc.stopped hg hstop hfailure⟩
  · exact fun _ => ⟨[], .initial _ tokens (grammar_build ..)⟩

/-- The expansions of an accepting run, in order, are a leftmost derivation of the input from the
start symbol, and the parse tree lists them. Both the stack and the input are used up. The `FOLLOW`
sets of the table may be those of any grammar. -/
theorem parse_accepted_leftmost (hg : g.Attainable)
    (h : ((build g.firstSets follow).parse mode tokens).outcome = .accepted) :
    let r := (build g.firstSets follow).parse mode tokens
    (∃ v, g.Leftmost [.nonterminal g.start] r.expansions v ∧
      eraseEpsilon v = tokens.map .terminal) ∧
    r.tree = r.expansions.map TreeEdge.ofExpansion ∧ r.final.stack = [] ∧
    inputSymbols r.final.input = [.endMarker] := by
  intro r
  obtain ⟨past, htraced, hstack, hinput⟩ := parse_accepted_traced hg.wellFormed h
  have hleftmost := htraced.leftmost
  have htokens := htraced.tokens
  rw [hstack, List.append_nil] at hleftmost
  rw [hinput, List.map_nil, List.append_nil] at htokens
  exact ⟨⟨past, hleftmost, htokens⟩, htraced.tree, hstack, by rw [hinput]; rfl⟩

theorem parse_accepted_leftmost_of_text :
    let g : Grammar :=
      { rules := [⟨"S", [[.nonterminal "A", .terminal "b"]]⟩,
          ⟨"A", [[.terminal "a"], [.epsilon]]⟩]
        start := "S" }
    let r := (build g.firstSets g.firstSets.followSets).parse .abort ["a", "b"]
    Grammar.ofText "S -> A b; A -> a | ε" = .ok g ∧ r.outcome = .accepted ∧
      ∃ v, g.Leftmost [.nonterminal "S"] r.expansions v ∧
        eraseEpsilon v = [.terminal "a", .terminal "b"] := by
  intro g r
  have hg : Grammar.ofText "S -> A b; A -> a | ε" = .ok g := rfl
  have hr : r.outcome = .accepted := by
    simp only [r, g]
    cbv
  exact ⟨hg, hr, (parse_accepted_leftmost (.ofText hg) hr).1⟩

end Table

end PredictiveParsing
