import Mathlib.Data.List.DropRight
import PredictiveParsing.Proofs.EditScript
import PredictiveParsing.Proofs.NoLeftRecursion

/-!
# What a reported left recursion says about the grammar

What lies above the place of a pending expansion is derived from its nonterminal, behind the symbols
that have been taken from the stack since. As no token has been consumed, these stand for the empty
word, unless panic mode has dropped them. So a reported nonterminal derives a form in which it comes
again behind dropped symbols. If there are none, as in abort mode, it is left-recursive. Otherwise
it need not be.

## Main definitions

* `Grammar.RecursBehind`: a nonterminal derives a form in which it comes behind other symbols.
* `Run.dropped`: the symbols that have been dropped since the last token left the input.
* `Configuration.Derived`: the pending expansions derive what lies above their places.

## Main statements

* `Grammar.not_leftRecursive`: a nonterminal with guarded alternatives is not left-recursive.
* `Table.recursBehind_of_leftRecursion`: what a left recursion says that a run reports.
-/

namespace PredictiveParsing

open Relation (TransGen)

namespace Grammar

variable {g : Grammar} {name : String}

/-- A nonterminal derives, in one step or more, a form in which it comes behind `before`, with the
symbols for the empty word erased. -/
def RecursBehind (g : Grammar) (name : String) (before : List Symbol) : Prop :=
  ∃ past rest, TransGen g.Rewrites [.nonterminal name] (past ++ .nonterminal name :: rest) ∧
    eraseEpsilon past = before

/-- A nonterminal derives, in one step or more, a form that starts with it, with the symbols for the
empty word erased. -/
def LeftRecursive (g : Grammar) (name : String) : Prop :=
  ∃ v, TransGen g.Rewrites [.nonterminal name] v ∧
    (eraseEpsilon v).head? = some (.nonterminal name)

theorem RecursBehind.leftRecursive (h : g.RecursBehind name []) : g.LeftRecursive name := by
  obtain ⟨past, rest, hderives, hpast⟩ := h
  exact ⟨_, hderives, by simp [hpast]⟩

/-- However the nonterminals at the front of a form are replaced, it does not come to start with
`name`. -/
inductive Guarded (g : Grammar) (name : String) : List Symbol → Prop
  | nil : Guarded g name []
  | terminal (a : String) (u : List Symbol) : Guarded g name (.terminal a :: u)
  | epsilon {u : List Symbol} (h : Guarded g name u) : Guarded g name (.epsilon :: u)
  | nonterminal {other : String} {u : List Symbol} (hne : other ≠ name)
      (h : ∀ p ∈ g.alternatives other, Guarded g name (p ++ u)) :
      Guarded g name (.nonterminal other :: u)

theorem Guarded.rewrites {u v : List Symbol} (h : g.Guarded name u) (hstep : g.Rewrites u v) :
    g.Guarded name v := by
  induction h generalizing v with
  | nil => exact absurd hstep not_rewrites_nil
  | terminal a u =>
    obtain ⟨_, heq, -⟩ | ⟨u', -, rfl⟩ := rewrites_cons_iff.1 hstep
    · cases heq
    · exact .terminal a u'
  | epsilon _ ih =>
    obtain ⟨_, heq, -⟩ | ⟨u', hu, rfl⟩ := rewrites_cons_iff.1 hstep
    · cases heq
    · exact .epsilon (ih hu)
  | nonterminal hne h ih =>
    obtain ⟨_, heq, p, hp, rfl⟩ | ⟨u', hu, rfl⟩ := rewrites_cons_iff.1 hstep
    · obtain rfl := Symbol.nonterminal.inj heq
      exact h p hp
    · exact .nonterminal hne fun p hp => ih p hp (hu.append_left p)

theorem Guarded.head?_ne {u : List Symbol} (h : g.Guarded name u) :
    (eraseEpsilon u).head? ≠ some (.nonterminal name) := by
  induction h with
  | epsilon _ ih => exact ih
  | nonterminal hne => simpa using hne
  | _ => simp

/-- A nonterminal with guarded alternatives is not left-recursive. -/
theorem not_leftRecursive (h : ∀ p ∈ g.alternatives name, g.Guarded name p) :
    ¬ g.LeftRecursive name := by
  rintro ⟨v, hderives, hv⟩
  have hguarded : g.Guarded name v := by
    clear hv
    induction hderives with
    | single hfirst =>
      obtain ⟨_, heq, p, hp, rfl⟩ | ⟨u, hu, -⟩ := rewrites_cons_iff.1 hfirst
      · obtain rfl := Symbol.nonterminal.inj heq
        simpa using h p hp
      · exact absurd hu not_rewrites_nil
    | tail _ hnext ih => exact ih.rewrites hnext
  exact hguarded.head?_ne hv

end Grammar

/-! ## Symbols dropped since the last token -/

/-- The symbols that some actions have dropped from the stack since the last token left the input,
in order. -/
def droppedBy (actions : List Action) : List Symbol :=
  (actions.rtakeWhile (·.token?.isNone)).filterMap Action.settled?

/-- The symbols that have been dropped from the stack since the last token left the input. -/
def Configuration.dropped (c : Configuration) : List Symbol := droppedBy c.actions

/-- The symbols that a run has dropped from the stack since the last token left the input. -/
def Run.dropped (r : Run) : List Symbol := droppedBy r.actions

theorem droppedBy_concat_of_none {a : Action} (ha : a.token? = none) (actions : List Action) :
    droppedBy (actions ++ [a]) = droppedBy actions ++ a.settled?.toList := by
  rw [droppedBy, List.rtakeWhile_concat_pos _ _ _ (by simp [ha]), List.filterMap_append]
  cases h : a.settled? <;> simp [droppedBy, h]

theorem droppedBy_concat_of_some {a : Action} {token : String} (ha : a.token? = some token)
    (actions : List Action) : droppedBy (actions ++ [a]) = [] := by
  rw [droppedBy, List.rtakeWhile_concat_neg _ _ _ (by simp [ha]), List.filterMap_nil]

namespace Configuration

variable {g : Grammar} {t : Table} {mode : Recovery} {c d : Configuration} {r : Run} {s : Symbol}
  {rest : List Symbol} {e : Expansion}

/-- An action without a token adds the symbol that it drops, if any. -/
theorem dropped_of_actions {a : Action} (hd : d.actions = c.actions ++ [a])
    (ha : a.token? = none) : d.dropped = c.dropped ++ a.settled?.toList := by
  rw [dropped, hd, droppedBy_concat_of_none ha, dropped]

/-- An expansion drops nothing. -/
theorem dropped_push (name : String) (p : Alternative) (c : Configuration) :
    (c.push name p).dropped = c.dropped :=
  (dropped_of_actions (actions_push ..) rfl).trans (List.append_nil _)

/-- Where no errors have been recorded, no symbols have been dropped. -/
theorem Transition.dropped_eq_nil (hc : c.errors = [] → c.dropped = [])
    (h : Transition t mode c (.moved d)) (hd : d.errors = []) : d.dropped = [] := by
  have hnone := hc (h.errors_eq_nil hd)
  cases h with
  | @popEpsilon rest =>
    have hactions : ({ c with stack := rest }.record .popEpsilon).actions
        = c.actions ++ [.popEpsilon] := actions_record ..
    exact (dropped_of_actions hactions rfl).trans (by rw [hnone]; rfl)
  | @expand name _ p => exact (dropped_push name p _).trans hnone
  | consume =>
    rw [dropped, actions_record]
    exact droppedBy_concat_of_some rfl _
  | skip => simp [errors_skipTo, note] at hd
  | drop => simp [note] at hd

/-! ## Pending expansions -/

/-- Each pending expansion, unless it is finished, derives what lies above the place of its
nonterminal, behind symbols that have been dropped since the last token. -/
def Derived (g : Grammar) (c : Configuration) : Prop :=
  ∀ e ∈ c.pending, e.depth < c.stack.length → ∃ top below, c.stack = top ++ below ∧
    below.length = e.depth ∧ ∃ past, TransGen g.Rewrites [.nonterminal e.name] (past ++ top) ∧
      eraseEpsilon past <:+ c.dropped

namespace Derived

theorem of_pending_eq_nil (h : c.pending = []) : c.Derived g := by
  simp [Derived, h]

/-- An unfinished expansion derives the symbol on top of the stack. -/
theorem cons (hc : c.Derived g) (hstack : c.stack = s :: rest) (he : e ∈ c.pending)
    (hdepth : e.depth ≤ rest.length) :
    ∃ top below, rest = top ++ below ∧ below.length = e.depth ∧
      ∃ past, TransGen g.Rewrites [.nonterminal e.name] (past ++ s :: top) ∧
        eraseEpsilon past <:+ c.dropped :=
  exists_split_tail (P := fun top =>
    ∃ past, TransGen g.Rewrites [.nonterminal e.name] (past ++ top) ∧
      eraseEpsilon past <:+ c.dropped) hstack hdepth (hc e he)

/-- The top symbol is taken from the stack, and it stands for the empty word or is dropped. -/
theorem pop (hc : c.Derived g) (hstack : c.stack = s :: rest) (hd : d.stack = rest)
    (hpending : d.pending ⊆ c.pending) (hdropped : d.dropped = c.dropped ++ eraseEpsilon [s]) :
    d.Derived g := by
  intro e he hdepth
  rw [hd] at hdepth
  obtain ⟨top, below, hrest, hlength, past, hderives, hpast⟩ :=
    hc.cons hstack (hpending he) hdepth.le
  refine ⟨top, below, hd.trans hrest, hlength, past ++ [s], ?_, ?_⟩
  · simpa using hderives
  · obtain ⟨earlier, hearlier⟩ := hpast
    rw [hdropped, ← hearlier]
    exact ⟨earlier, by simp⟩

theorem push {name : String} {p : Alternative} (hc : c.Derived g)
    (hstack : c.stack = .nonterminal name :: rest) (hp : p ∈ g.alternatives name) :
    Derived g ({ c with stack := rest, pending := c.unfinished rest.length }.push name p) := by
  intro e he _
  rw [dropped_push]
  rcases List.mem_cons.1 he with rfl | he
  · have hfirst : g.Rewrites [.nonterminal name] p := by
      simpa using Grammar.Rewrites.replace [] [] hp
    exact ⟨p, rest, rfl, rfl, [], .single hfirst, List.nil_suffix⟩
  · obtain ⟨he, hle⟩ := mem_unfinished.1 he
    obtain ⟨top, below, hrest, hlength, past, hderives, hpast⟩ := hc.cons hstack he hle
    exact ⟨p ++ top, below, by simp [Configuration.push, record, hrest], hlength, past,
      hderives.tail (.replace past top hp), hpast⟩

/-- A move preserves the invariant. Panic mode leaves what is pending as it is when it drops a
symbol and discards no token. -/
theorem transition (hcell : ∀ name x p, t.cell? name x = some p → p ∈ g.alternatives name)
    (hc : c.Derived g) (h : Transition t mode c (.moved d)) : d.Derived g := by
  cases h with
  | popEpsilon hstack =>
    exact hc.pop hstack rfl (List.Subset.refl _) (dropped_of_actions (actions_record ..) rfl)
  | expand hstack _ hp => exact hc.push hstack (hcell _ _ _ hp)
  | @skip name rest _ hstack =>
    rcases skipTo_eq_self_or_pending_eq_nil ((t.follow.get? name).getD [])
      (note { c with stack := rest, pending := c.unfinished rest.length }
        (.noRule name (lookahead c.input))) with ⟨-, hstay⟩ | hnil
    · rw [hstay]
      exact hc.pop hstack rfl (List.filter_subset_self _)
        (dropped_of_actions (actions_note ..) rfl)
    · exact of_pending_eq_nil hnil
  | consume => exact of_pending_eq_nil rfl
  | @drop top rest _ hstack htop =>
    have hactions : ({ c with stack := rest }.note (.mismatch top (lookahead c.input))).actions
        = c.actions ++ [.error (.mismatch top (lookahead c.input))] := actions_note ..
    refine hc.pop hstack rfl (List.Subset.refl _) ((dropped_of_actions hactions rfl).trans ?_)
    cases top <;> simp_all [Action.settled?, Symbol.isTerminal]

/-- Where a run stops at a repetition, the nonterminal comes again behind dropped symbols. -/
theorem recursBehind (hc : c.Derived g) {name : String}
    (hstack : c.stack = .nonterminal name :: rest)
    (hold : (c.unfinished rest.length).any (·.name == name)) :
    ∃ before, before <:+ c.dropped ∧ g.RecursBehind name before := by
  obtain ⟨e, he, rfl, hdepth⟩ := exists_pending hold
  obtain ⟨top, below, -, -, past, hderives, hpast⟩ := hc.cons hstack he hdepth
  exact ⟨eraseEpsilon past, hpast, past, top, hderives, rfl⟩

end Derived

/-- A run reports a left recursion where the check finds a repetition, and drops nothing there. -/
theorem Transition.exists_repetition {name : String} {x : Symbol}
    (h : Transition t mode c (.stopped r)) (hr : r.failure = some (.leftRecursion name x)) :
    r.dropped = c.dropped ∧ ∃ rest, c.stack = .nonterminal name :: rest ∧
      (c.unfinished rest.length).any (·.name == name) := by
  cases h with
  | repetition hstack hold =>
    obtain ⟨rfl, -⟩ := SyntaxError.leftRecursion.inj (Option.some.inj hr)
    exact ⟨(dropped_of_actions (c := c) (actions_record ..) rfl).trans (List.append_nil _), _,
      hstack, hold⟩
  | accept => cases hr
  | endMarker => cases hr
  | _ => cases Option.some.inj hr

end Configuration

theorem Run.errors_eq_nil_of_rejected {r : Run} {e : SyntaxError} (h : r.outcome = .rejected e) :
    r.final.errors = [] := by
  unfold outcome at h
  split at h <;> grind

namespace Table

open PredictiveParsing.Configuration

/-- If a run with a table of an attainable grammar reports a left recursion of a nonterminal, in
either mode, then this derives a form in which it comes behind symbols that have been dropped since
the last token, and nothing else. So it is left-recursive if none have been dropped, as in abort
mode and where the left recursion is the only error. The `FOLLOW` sets of the table may be those of
any grammar. -/
theorem recursBehind_of_leftRecursion {g : Grammar} (hg : g.Attainable) (follow : FollowSets)
    (mode : Recovery) (tokens : List String) {name : String} {x : Symbol}
    (h : .leftRecursion name x ∈
      ((build g.firstSets follow).parse mode tokens).outcome.errors) :
    let r := (build g.firstSets follow).parse mode tokens
    (∃ before, before <:+ r.dropped ∧ g.RecursBehind name before) ∧
      (r.dropped = [] → g.LeftRecursive name) ∧
      (mode = .abort ∨ r.outcome = .rejected (.leftRecursion name x) → r.dropped = []) := by
  intro r
  have hcell : ∀ name x p,
      (build g.firstSets follow).cell? name x = some p → p ∈ g.alternatives name :=
    fun _ _ _ => mem_alternatives_of_cell? hg.wellFormed
  have hfailure : r.failure = some (.leftRecursion name x) :=
    (Run.mem_errors_outcome h).resolve_left fun hmem =>
      not_isLeftRecursion_of_mem_errors (by simp [Configuration.initial]) _ hmem trivial
  obtain ⟨hrecurs, hnone, habort⟩ : (∃ before, before <:+ r.dropped ∧ g.RecursBehind name before) ∧
      (r.final.errors = [] → r.dropped = []) ∧ (mode = .abort → r.final.errors = []) := by
    refine run_induction
      (P := fun c => c.Derived g ∧ (c.errors = [] → c.dropped = []) ∧
        (mode = .abort → c.errors = []))
      (Q := fun r => r.failure = some (.leftRecursion name x) →
        (∃ before, before <:+ r.dropped ∧ g.RecursBehind name before) ∧
          (r.final.errors = [] → r.dropped = []) ∧ (mode = .abort → r.final.errors = []))
      (fun c d hc hmove => ?_) (fun c r hc hstop hr => ?_)
      ⟨.of_pending_eq_nil rfl, fun _ => rfl, fun _ => rfl⟩ hfailure
    · obtain ⟨hderived, hnone, habort⟩ := hc
      refine ⟨hderived.transition hcell hmove, hmove.dropped_eq_nil hnone, ?_⟩
      rintro rfl
      exact hmove.errors_eq_of_abort.trans (habort rfl)
    · obtain ⟨hderived, hnone, habort⟩ := hc
      obtain ⟨hdropped, rest, hstack, hold⟩ := hstop.exists_repetition hr
      rw [hdropped, hstop.errors_final]
      exact ⟨hderived.recursBehind hstack hold, hnone, habort⟩
  refine ⟨hrecurs, fun hnil => ?_, ?_⟩
  · obtain ⟨before, hbefore, hrecurs⟩ := hrecurs
    rw [hnil, List.suffix_nil] at hbefore
    exact (hbefore ▸ hrecurs).leftRecursive
  · rintro (hmode | hrejected)
    · exact hnone (habort hmode)
    · exact hnone (Run.errors_eq_nil_of_rejected hrejected)

/-- A nonterminal comes again behind one that derives the empty word. -/
theorem recursBehind_of_leftRecursion_of_text :
    let g : Grammar :=
      { rules := [⟨"S", [[.terminal "b"], [.nonterminal "A", .terminal "a"]]⟩,
          ⟨"A", [[.nonterminal "N", .nonterminal "S", .terminal "c"]]⟩,
          ⟨"N", [[.terminal "n"], [.epsilon]]⟩]
        start := "S" }
    let r := g.table.parse .abort ["b"]
    Grammar.ofText "S -> b | A a; A -> N S c; N -> n | ε" = .ok g ∧
      .leftRecursion "S" (.terminal "b") ∈ r.outcome.errors ∧ r.dropped = [] ∧
      g.LeftRecursive "S" := by
  intro g r
  have hg : Grammar.ofText "S -> b | A a; A -> N S c; N -> n | ε" = .ok g := by
    set_option maxRecDepth 2000 in rfl
  have hr : r.outcome = .rejected (.leftRecursion "S" (.terminal "b")) := by
    simp only [r, g]
    cbv
  have herror : .leftRecursion "S" (.terminal "b") ∈ r.outcome.errors := by
    simp [hr, Outcome.errors]
  obtain ⟨-, hrecursive, hnone⟩ := recursBehind_of_leftRecursion (.ofText hg)
    g.firstSets.followSets .abort ["b"] herror
  have hnil : r.dropped = [] := hnone (.inl rfl)
  exact ⟨hg, herror, hnil, hrecursive hnil⟩

/-- Panic mode drops a terminal and comes back to the nonterminal, while no nonterminal of the
grammar is left-recursive. -/
theorem leftRecursion_of_dropped_terminal :
    let g : Grammar :=
      { rules := [⟨"S", [[.nonterminal "B", .terminal "x"],
            [.nonterminal "B", .terminal "y", .nonterminal "S"]]⟩,
          ⟨"B", [[.terminal "x"], [.epsilon]]⟩]
        start := "S" }
    let r := g.table.parse .panicMode ["x"]
    Grammar.ofText "S -> B x | B y S; B -> x | ε" = .ok g ∧
      r.outcome = .recovered [.mismatch (.terminal "y") (.terminal "x"),
        .leftRecursion "S" (.terminal "x")] ∧
      r.dropped = [.terminal "y"] ∧ ∀ name, ¬ g.LeftRecursive name := by
  intro g r
  have hg : Grammar.ofText "S -> B x | B y S; B -> x | ε" = .ok g := by
    set_option maxRecDepth 2000 in rfl
  have hr : r.outcome = .recovered [.mismatch (.terminal "y") (.terminal "x"),
      .leftRecursion "S" (.terminal "x")] ∧ r.dropped = [.terminal "y"] := by
    simp only [r, g]
    cbv
    decide
  -- `B` is empty or a terminal, and a terminal comes behind it.
  have hguarded : ∀ a u, g.Guarded "S" (.nonterminal "B" :: .terminal a :: u) := by
    intro a u
    refine .nonterminal (by decide) fun p hp => ?_
    have hp : p ∈ [[.terminal "x"], [.epsilon]] := hp
    rcases List.mem_pair.1 hp with rfl | rfl
    · exact .terminal "x" _
    · exact .epsilon (.terminal a u)
  refine ⟨hg, hr.1, hr.2, fun name => Grammar.not_leftRecursive fun p hp => ?_⟩
  obtain ⟨q, hq, rfl, hp⟩ := Grammar.exists_rule_of_mem_alternatives hp
  rcases List.mem_pair.1 hq with rfl | rfl
  · rcases List.mem_pair.1 hp with rfl | rfl
    · exact hguarded "x" []
    · exact hguarded "y" [.nonterminal "S"]
  · rcases List.mem_pair.1 hp with rfl | rfl
    · exact .terminal "x" []
    · exact .epsilon .nil

end Table

end PredictiveParsing
