import PredictiveParsing.Proofs.NoLeftRecursion
import PredictiveParsing.Proofs.Soundness

/-!
# Tables without conflicts parse exactly

Let the table of a grammar be without conflicts. A stack whose symbols derive the rest of the input
tells the parser what to do: the alternative with which a derivation goes on is the one in the cell.
So the parser follows the derivation to the end. The check for repetitions does not interfere, since
no nonterminal comes up within its own expansion with no token consumed between.

## Main definitions

* `Grammar.Viable`: a stack that derives the rest of the input, with `FOLLOW` sets that hold for it.
* `Configuration.Open`: how the expansions that are not finished have led to the top of the stack.

## Main statements

* `Grammar.Ready.transition`: the parser follows a derivation.
* `Grammar.accepted_iff_mem_language`: without conflicts, exactly the language is accepted.
-/

namespace PredictiveParsing

open Relation (TransGen)

namespace Grammar

variable {g : Grammar} {es : List (String × Alternative)} {u v rest : List Symbol}
  {ws : List String} {name : String} {p : Alternative} {s x : Symbol}

/-! ## Viable stacks -/

/-- The next token is one that the symbols of the stack expect before the end marker. -/
theorem Parses.expects (h : g.Parses es u ws) :
    g.Expects (· = .endMarker) u (lookahead ws) := by
  induction h with
  | nil => exact expects_nil.2 rfl
  | terminal => exact expects_cons_terminal.2 rfl
  | epsilon _ ih => exact expects_cons_epsilon.2 ih
  | nonterminal hp _ ih => exact ih.nonterminal hp

theorem lookahead_ne_epsilon (ws : List String) : lookahead ws ≠ .epsilon := by
  cases ws <;> simp [lookahead]

/-- The replacements `es` take apart the rest of the input, and the `FOLLOW` sets hold what comes
after each nonterminal of the stack. -/
structure Viable (g : Grammar) (es : List (String × Alternative)) (stack : List Symbol)
    (ws : List String) : Prop where
  parses : g.Parses es stack ws
  follows : g.Follows (· = .endMarker) stack

namespace Viable

theorem input_eq_nil (h : g.Viable es [] ws) : ws = [] := by
  obtain ⟨hparses, -⟩ := h
  cases hparses
  rfl

theorem popEpsilon (h : g.Viable es (.epsilon :: u) ws) : g.Viable es u ws := by
  obtain ⟨hparses, hfollows⟩ := h
  cases hparses with
  | epsilon hparses => exact ⟨hparses, hfollows.tail⟩

theorem consume {a : String} (h : g.Viable es (.terminal a :: u) ws) :
    ∃ zs, ws = a :: zs ∧ g.Viable es u zs := by
  obtain ⟨hparses, hfollows⟩ := h
  cases hparses with
  | terminal hparses => exact ⟨_, rfl, hparses, hfollows.tail⟩

/-- The alternative with which the derivation goes on is the one in the cell. -/
theorem expand (hg : g.WellFormed) (hll : g.table.isLL1)
    (h : g.Viable es (.nonterminal name :: u) ws) :
    ∃ p fs, es = (name, p) :: fs ∧ g.table.cell? name (lookahead ws) = some p ∧
      g.Viable fs (p ++ u) ws := by
  obtain ⟨hparses, hfollows⟩ := h
  cases hparses with
  | nonterminal hp hparses =>
    refine ⟨_, _, rfl, ?_, hparses, hfollows.expand hg hp⟩
    refine cell?_table hg hll hp ?_ (lookahead_ne_epsilon ws)
    exact (expects_append.1 hparses.expects).imp_right (And.imp_right hfollows.head)

theorem eq_lookahead (h : g.Viable es (s :: u) ws) (hs : s.isTerminal) : s = lookahead ws := by
  obtain ⟨hparses, -⟩ := h
  cases hparses with
  | terminal => rfl
  | epsilon => simp [Symbol.isTerminal] at hs
  | nonterminal => simp [Symbol.isTerminal] at hs

end Viable

end Grammar

/-! ## Moves that consume nothing -/

/-- A move at the lookahead `x` that consumes nothing. -/
inductive Silent (t : Table) (x : Symbol) : List Symbol → List Symbol → Prop
  | popEpsilon (u : List Symbol) : Silent t x (.epsilon :: u) u
  | expand {name : String} {p : Alternative} (hcell : t.cell? name x = some p) (u : List Symbol) :
      Silent t x (.nonterminal name :: u) (p ++ u)

/-- Both modes make these moves. -/
theorem Silent.idle {t : Table} {mode : Recovery} {x : Symbol} {u v : List Symbol}
    (h : Silent t x u v) : Idle t mode x u v := by
  cases h with
  | popEpsilon => exact .popEpsilon v
  | expand hcell => exact .expand hcell _

/-! ## Open expansions -/

namespace Configuration

variable {t : Table} {mode : Recovery} {c d : Configuration}

/-- Each expansion that is not finished has been brought, by moves that consume nothing, to what now
lies above the place of its nonterminal. -/
def Open (t : Table) (c : Configuration) : Prop :=
  ∀ e ∈ c.pending, e.depth < c.stack.length → ∃ top below, c.stack = top ++ below ∧
    below.length = e.depth ∧ TransGen (Silent t (lookahead c.input)) [.nonterminal e.name] top

/-- An unfinished expansion has led to the symbol on top of the stack. -/
theorem Open.cons {s : Symbol} {rest : List Symbol} (hc : c.Open t) (hstack : c.stack = s :: rest)
    {e : Expansion} (he : e ∈ c.pending) (hdepth : e.depth ≤ rest.length) :
    ∃ top below, rest = top ++ below ∧ below.length = e.depth ∧
      TransGen (Silent t (lookahead c.input)) [.nonterminal e.name] (s :: top) :=
  exists_split_tail hstack hdepth (hc e he)

theorem Open.transition (hc : c.Open t) (h : Transition t mode c (.moved d))
    (hd : d.errors = []) : d.Open t := by
  cases h with
  | @popEpsilon rest hstack =>
    intro e he hdepth
    obtain ⟨top, below, hrest, hlength, hmoves⟩ := hc.cons hstack he (le_of_lt hdepth)
    exact ⟨top, below, hrest, hlength, hmoves.tail (.popEpsilon top)⟩
  | @expand name rest p hstack _ hcell =>
    intro e he _
    have hexpand : Silent t (lookahead c.input) [.nonterminal name] p := by
      simpa using Silent.expand hcell []
    rcases List.mem_cons.1 he with rfl | he
    · exact ⟨p, rest, rfl, rfl, .single hexpand⟩
    · obtain ⟨he, hle⟩ := mem_unfinished.1 he
      obtain ⟨top, below, hrest, hlength, hmoves⟩ := hc.cons hstack he hle
      exact ⟨p ++ top, below, by simp [push, record, hrest], hlength,
        hmoves.tail (.expand hcell top)⟩
  | consume => simp [Open, record]
  | skip => simp [errors_skipTo, note] at hd
  | drop => simp [note] at hd

end Configuration

/-! ## The parser follows a derivation -/

namespace Grammar

variable {g : Grammar} {mode : Recovery} {tokens : List String} {c d : Configuration}

/-- Nothing has gone wrong, and nothing will: the stack is viable. -/
structure Ready (g : Grammar) (c : Configuration) : Prop where
  errors : c.errors = []
  viable : ∃ es, g.Viable es c.stack c.input
  unfinished : c.Open g.table

theorem Ready.initial (hg : g.WellFormed) (h : tokens ∈ g.language) :
    g.Ready (Configuration.initial g.table tokens) := by
  obtain ⟨es, hes⟩ := exists_parses h
  have hstart : g.table.grammar.start = g.start := by simp [table, firstSets]
  refine ⟨rfl, ⟨es, ?_⟩, by simp [Configuration.Open, Configuration.initial]⟩
  simp only [Configuration.initial, hstart]
  exact ⟨hes, follows_start hg⟩

/-- The check for repetitions does not stop the parser. -/
theorem Ready.not_repetition (hg : g.WellFormed) (hll : g.table.isLL1) (hc : g.Ready c)
    {name : String} {rest : List Symbol} (hstack : c.stack = .nonterminal name :: rest) :
    ¬ (c.unfinished rest.length).any (·.name == name) := by
  intro hold
  obtain ⟨e, he, rfl, hle⟩ := Configuration.exists_pending hold
  obtain ⟨top, -, -, -, hmoves⟩ := hc.unfinished.cons hstack he hle
  have hrepeats : Repeats g.table .abort (lookahead c.input) e.name :=
    ⟨top, TransGen.mono (fun _ _ => Silent.idle) _ _ hmoves⟩
  exact not_repeats hg hll hrepeats

/-- The cell for the nonterminal on top of the stack is filled. -/
theorem Ready.exists_cell? (hg : g.WellFormed) (hll : g.table.isLL1) (hc : g.Ready c)
    {name : String} {rest : List Symbol} (hstack : c.stack = .nonterminal name :: rest) :
    ∃ p es, g.table.cell? name (lookahead c.input) = some p ∧ g.Viable es (p ++ rest) c.input := by
  obtain ⟨es, hes⟩ := hc.viable
  obtain ⟨p, fs, -, hcell, hfs⟩ := (hstack ▸ hes).expand hg hll
  exact ⟨p, fs, hcell, hfs⟩

theorem Ready.eq_lookahead (hc : g.Ready c) {top : Symbol} {rest : List Symbol}
    (hstack : c.stack = top :: rest) (htop : top.isTerminal) : top = lookahead c.input := by
  obtain ⟨es, hes⟩ := hc.viable
  exact (hstack ▸ hes).eq_lookahead htop

/-- The parser follows a derivation. -/
theorem Ready.transition (hg : g.WellFormed) (hll : g.table.isLL1) (hc : g.Ready c)
    (h : Configuration.Transition g.table mode c (.moved d)) : g.Ready d := by
  obtain ⟨es, hes⟩ := hc.viable
  have herrors : d.errors = [] ∧ ∃ fs, g.Viable fs d.stack d.input := by
    cases h with
    | popEpsilon hstack => exact ⟨hc.errors, es, (hstack ▸ hes).popEpsilon⟩
    | expand hstack _ hcell =>
      obtain ⟨p, fs, hp, hfs⟩ := hc.exists_cell? hg hll hstack
      obtain rfl := Option.some.inj (hcell.symm.trans hp)
      exact ⟨hc.errors, fs, hfs⟩
    | consume hstack hinput =>
      obtain ⟨zs, hzs, hviable⟩ := (hstack ▸ hes).consume
      obtain ⟨-, rfl⟩ := List.cons.inj (hinput.symm.trans hzs)
      exact ⟨hc.errors, es, hviable⟩
    | skip _ hstack _ hcell =>
      obtain ⟨p, -, hp, -⟩ := hc.exists_cell? hg hll hstack
      simp [hcell] at hp
    | drop _ hstack htop hne => exact absurd (hc.eq_lookahead hstack htop) hne
  exact ⟨herrors.1, herrors.2, hc.unfinished.transition h herrors.1⟩

/-- A run that follows a derivation stops at its end. -/
theorem Ready.accepted {r : Run} (hg : g.WellFormed) (hll : g.table.isLL1) (hc : g.Ready c)
    (h : Configuration.Transition g.table mode c (.stopped r)) : r.outcome = .accepted := by
  obtain ⟨es, hes⟩ := hc.viable
  refine Run.outcome_eq_accepted.2 ⟨h.errors_final.trans hc.errors, ?_⟩
  cases h with
  | accept => rfl
  | endMarker => rfl
  | incomplete hstack hinput =>
    exact absurd (hstack ▸ hes).input_eq_nil hinput
  | repetition hstack hold => exact absurd hold (hc.not_repetition hg hll hstack)
  | noRule _ hstack _ hcell =>
    obtain ⟨p, -, hp, -⟩ := hc.exists_cell? hg hll hstack
    simp [hcell] at hp
  | mismatch _ hstack htop hne => exact absurd (hc.eq_lookahead hstack htop) hne

theorem parse_accepted_of_mem_language (hg : g.WellFormed) (hll : g.table.isLL1)
    (h : tokens ∈ g.language) : (g.table.parse mode tokens).outcome = .accepted :=
  Configuration.run_induction (P := g.Ready) (fun _ _ hc => hc.transition hg hll)
    (fun _ _ hc => hc.accepted hg hll) (.initial hg h)

/-- What is accepted is derived, with any table. -/
theorem mem_language_of_parse_accepted {follow : FollowSets} (hg : g.WellFormed)
    (h : ((Table.build g.firstSets follow).parse mode tokens).outcome = .accepted) :
    tokens ∈ g.language := by
  obtain ⟨past, hpast, hstack, hinput⟩ := Table.parse_accepted_traced hg h
  refine ⟨past, ?_, ?_⟩
  · simpa [hstack] using hpast.leftmost.derives
  · simpa [hinput] using hpast.tokens

/-- If the table of a grammar from its own sets is without conflicts, the parser accepts exactly the
words that the start symbol derives. -/
theorem accepted_iff_mem_language (hg : g.Attainable) (hll : g.table.isLL1 = true)
    (mode : Recovery) (tokens : List String) :
    (g.table.parse mode tokens).outcome = .accepted ↔ tokens ∈ g.language :=
  ⟨mem_language_of_parse_accepted hg.wellFormed,
    parse_accepted_of_mem_language hg.wellFormed hll⟩

theorem accepted_iff_mem_language_of_text :
    let g : Grammar :=
      { rules := [⟨"E", [[.nonterminal "E", .terminal "+", .nonterminal "T"], [.nonterminal "T"]]⟩,
          ⟨"T", [[.terminal "x"]]⟩]
        start := "E" }
    ofText "E -> E + T | T; T -> x" = .ok g ∧ g.eliminateLeftRecursion.table.isLL1 = true ∧
      ∀ mode tokens, (g.eliminateLeftRecursion.table.parse mode tokens).outcome = .accepted ↔
        tokens ∈ g.eliminateLeftRecursion.language := by
  intro g
  have hg : ofText "E -> E + T | T; T -> x" = .ok g := rfl
  have hll : g.eliminateLeftRecursion.table.isLL1 = true := by
    simp only [g]
    cbv
  exact ⟨hg, hll, accepted_iff_mem_language (.eliminateLeftRecursion (.ofText hg)) hll⟩

end Grammar

end PredictiveParsing
