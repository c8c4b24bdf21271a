import PredictiveParsing.Proofs.Actions
import PredictiveParsing.Proofs.PanicMode
import PredictiveParsing.Proofs.Soundness

/-!
# Runs in panic mode are edit scripts

A consumed token stays and a skipped one goes. A symbol that is dropped from the stack stands for
something that is missing: the terminal that was expected, or anything that the nonterminal derives.
With these symbols in the places where they were dropped, the script is derived from the start
symbol, as far as it goes, by the expansions of the run. A dropped nonterminal stays in the form for
good, so the replaced nonterminals are no longer the first ones.

## Main definitions

* `Grammar.LeftToRight`: a derivation that leaves what it has settled as it is.
* `Scripted`: the expansions so far derive what has been settled and what is left on the stack.
* `Table.SkipsOutside`: tokens are skipped only where they cannot follow the nonterminal that
  failed.

## Main statements

* `Table.panicMode_edit_script`: what the actions of a run in panic mode say.
-/

namespace PredictiveParsing

/-! ## Derivations from left to right -/

namespace Grammar

variable {g : Grammar} {u v settled more : List Symbol} {es : List (String × Alternative)}

/-- A derivation with its replacements. What stands before a replaced nonterminal is a beginning of
`settled`, so it is not replaced later. -/
inductive LeftToRight (g : Grammar) (settled : List Symbol) :
    List Symbol → List (String × Alternative) → List Symbol → Prop
  | refl (u : List Symbol) : LeftToRight g settled u [] u
  | replace {before after v : List Symbol} {name : String} {p : Alternative}
      {es : List (String × Alternative)} (hbefore : before <+: settled)
      (hp : p ∈ g.alternatives name) (h : LeftToRight g settled (before ++ (p ++ after)) es v) :
      LeftToRight g settled (before ++ .nonterminal name :: after) ((name, p) :: es) v

namespace LeftToRight

/-- More may be settled later. -/
theorem mono (h : g.LeftToRight settled u es v) (hle : settled <+: more) :
    g.LeftToRight more u es v := by
  induction h with
  | refl u => exact .refl u
  | replace hbefore hp _ ih => exact .replace (hbefore.trans hle) hp ih

/-- One more replacement, right behind what is settled. -/
theorem snoc {after : List Symbol} {name : String} {p : Alternative}
    (h : g.LeftToRight settled u es (settled ++ .nonterminal name :: after))
    (hp : p ∈ g.alternatives name) :
    g.LeftToRight settled u (es ++ [(name, p)]) (settled ++ (p ++ after)) := by
  generalize hv : settled ++ .nonterminal name :: after = v at h
  induction h with
  | refl u =>
    subst hv
    exact .replace List.prefix_rfl hp (.refl _)
  | replace hbefore hq _ ih => exact .replace hbefore hq (ih hv)

theorem derives (h : g.LeftToRight settled u es v) : g.Derives u v := by
  induction h with
  | refl u => exact .refl u
  | replace _ hp _ ih => exact (Rewrites.replace _ _ hp).derives.trans ih

end LeftToRight

end Grammar

/-! ## What is settled -/

/-- The symbol that an action settles: a terminal that is consumed, or a symbol that is dropped from
the stack. -/
def Action.settled? : Action → Option Symbol
  | consume a => some (.terminal a)
  | error (.mismatch expected _) => some expected
  | error (.noRule name _) => some (.nonterminal name)
  | _ => none

/-- The symbols that have been settled up to a configuration, in order. -/
def Configuration.settled (c : Configuration) : List Symbol := c.actions.filterMap Action.settled?

/-- The symbols that a run has settled, in order. -/
def Run.settled (r : Run) : List Symbol := r.actions.filterMap Action.settled?

theorem Configuration.expansions_eq_actions (c : Configuration) :
    c.expansions = c.actions.filterMap Action.expansion? := by
  simp [expansions, actions, List.filterMap_map]

/-- What the expansions of a run derive is made up of what has been settled, with symbols for the
empty word between, and of the stack. -/
structure Scripted (g : Grammar) (past : List Symbol) (c : Configuration) : Prop where
  derived : g.LeftToRight past [.nonterminal g.start] c.expansions (past ++ c.stack)
  settled : eraseEpsilon past = c.settled

namespace Scripted

open PredictiveParsing.Configuration

variable {g : Grammar} {t : Table} {mode : Recovery} {past : List Symbol} {c d : Configuration}
  {r : Run}

theorem initial (t : Table) (tokens : List String) (h : t.grammar = g) :
    Scripted g [] (Configuration.initial t tokens) := by
  subst h
  exact ⟨.refl _, rfl⟩

/-- A symbol is taken from the stack, and it is settled unless it stands for the empty word. -/
theorem take {s : Symbol} {rest : List Symbol} {new : List Action} (hc : Scripted g past c)
    (hstack : c.stack = s :: rest) (hd : d.stack = rest) (hactions : d.actions = c.actions ++ new)
    (hexpansions : new.filterMap Action.expansion? = [])
    (hsettled : new.filterMap Action.settled? = eraseEpsilon [s]) :
    Scripted g (past ++ [s]) d where
  derived := by
    have hform : past ++ [s] ++ d.stack = past ++ c.stack := by simp [hstack, hd]
    have hsame : d.expansions = c.expansions := by
      simp [expansions_eq_actions, hactions, hexpansions]
    rw [hform, hsame]
    exact hc.derived.mono (List.prefix_append ..)
  settled := by
    rw [eraseEpsilon_append, hc.settled, ← hsettled, Configuration.settled,
      Configuration.settled, hactions, List.filterMap_append]

theorem expand {name : String} {rest : List Symbol} {p : Alternative} (hc : Scripted g past c)
    (hstack : c.stack = .nonterminal name :: rest) (hp : p ∈ g.alternatives name) :
    Scripted g past
      ({ c with stack := rest, pending := c.unfinished rest.length }.push name p) where
  derived := by
    have hnext := (hstack ▸ hc.derived).snoc hp
    rw [expansions_eq_actions] at hnext ⊢
    rw [actions_push, List.filterMap_append]
    exact hnext
  settled := by
    rw [Configuration.settled, actions_push, List.filterMap_append]
    exact hc.settled.trans (List.append_nil _).symm

/-- A move goes on with the derivation. -/
theorem transition (hcell : ∀ name x p, t.cell? name x = some p → p ∈ g.alternatives name)
    (hc : Scripted g past c) (h : Transition t mode c (.moved d)) :
    ∃ past', Scripted g past' d := by
  cases h with
  | popEpsilon hstack => exact ⟨_, hc.take hstack rfl (actions_record ..) rfl rfl⟩
  | expand hstack _ hp => exact ⟨_, hc.expand hstack (hcell _ _ _ hp)⟩
  | @skip name rest _ hstack =>
    obtain ⟨skipped, hactions, -⟩ := actions_note_skipTo ((t.follow.get? name).getD [])
      { c with stack := rest, pending := c.unfinished rest.length }
      (.noRule name (lookahead c.input))
    refine ⟨_, hc.take hstack stack_skipTo hactions ?_ ?_⟩
    · simp [Action.expansion?]
    · simp [Action.settled?]
  | consume hstack => exact ⟨_, hc.take hstack rfl (actions_record ..) rfl rfl⟩
  | @drop top rest _ hstack htop =>
    refine ⟨_, hc.take hstack rfl (actions_note ..) rfl ?_⟩
    cases top <;> simp_all [Action.settled?, Symbol.isTerminal]

/-- There is no end marker on the stack, as none is derived. -/
theorem endMarker_not_mem (hg : g.WellFormed) (hc : Scripted g past c) :
    .endMarker ∉ c.stack := fun h =>
  hg.endMarker_not_mem_of_derives hc.derived.derives (by simp) (List.mem_append_right _ h)

/-- Where a run in panic mode stops, nothing more is settled. -/
theorem stopped (hg : g.WellFormed) (hc : Scripted g past c)
    (h : Transition t .panicMode c (.stopped r)) : Scripted g past r.final := by
  have hlast : ∀ {a : Action}, a.expansion? = none → a.settled? = none →
      Scripted g past (c.record a) := by
    intro a hexpansion hsettled
    have hsame : (c.record a).expansions = c.expansions := by
      simp [expansions_eq_actions, hexpansion]
    refine ⟨?_, ?_⟩
    · rw [hsame]
      exact hc.derived
    · simpa [Configuration.settled, hsettled] using hc.settled
  cases h with
  | accept => exact hlast rfl rfl
  | incomplete => exact hlast rfl rfl
  | repetition => exact hlast rfl rfl
  | noRule hmode => cases hmode
  | mismatch hmode => cases hmode
  | endMarker hstack => exact absurd (by simp [hstack]) (hc.endMarker_not_mem hg)

end Scripted

/-- The errors of a run that has recovered are those after which it has gone on, and the one at
which it has stopped, if any. -/
theorem Run.outcome_eq_recovered {r : Run} {errors : List SyntaxError}
    (h : r.outcome = .recovered errors) :
    r.final.errors ≠ [] ∧ errors = r.final.errors ++ r.failure.toList := by
  obtain ⟨final, failure⟩ := r
  unfold outcome at h
  cases hfinal : final.errors with
  | nil => cases failure <;> simp [hfinal] at h
  | cons e es => exact ⟨List.cons_ne_nil e es, by simpa [hfinal, eq_comm] using h⟩

/-! ## What is skipped -/

namespace Table

open PredictiveParsing.Configuration

variable {t : Table} {mode : Recovery} {actions : List Action} {name : String} {x : Symbol}
  {skipped : List String} {c d : Configuration} {r : Run}

/-- Each skipped token comes after an error at a nonterminal which it cannot follow, with nothing
but other skipped tokens between. -/
def SkipsOutside (t : Table) (actions : List Action) : Prop :=
  ∀ before a after, actions = before ++ .skip a :: after →
    ∃ (name : String) (x : Symbol) (earlier : List Action) (skipped : List String),
      before = earlier ++ .error (.noRule name x) :: skipped.map .skip ∧
        .terminal a ∉ (t.follow.get? name).getD []

namespace SkipsOutside

/-- One more action, which, if it skips a token, comes after such an error. -/
theorem concat (h : t.SkipsOutside actions) {b : Action}
    (hb : ∀ a, b = .skip a →
      ∃ (name : String) (x : Symbol) (earlier : List Action) (skipped : List String),
        actions = earlier ++ .error (.noRule name x) :: skipped.map .skip ∧
          .terminal a ∉ (t.follow.get? name).getD []) :
    t.SkipsOutside (actions ++ [b]) := by
  intro before a after heq
  rcases List.eq_nil_or_concat after with rfl | ⟨after, b', rfl⟩
  · obtain ⟨rfl, hlast⟩ := List.append_inj' heq rfl
    exact hb a (List.head_eq_of_cons_eq hlast)
  · rw [List.concat_eq_append, ← List.cons_append, ← List.append_assoc] at heq
    exact h before a after (List.append_inj' heq rfl).1

/-- Tokens that cannot follow are skipped after an error. -/
theorem skips (h : t.SkipsOutside actions)
    (hskipped : ∀ a ∈ skipped, .terminal a ∉ (t.follow.get? name).getD []) :
    t.SkipsOutside (actions ++ .error (.noRule name x) :: skipped.map .skip) := by
  induction skipped using List.reverseRecOn with
  | nil => exact h.concat (by simp)
  | append_singleton skipped a ih =>
    have hbefore := ih fun b hb => hskipped b (List.mem_append_left _ hb)
    rw [List.map_append, ← List.cons_append, ← List.append_assoc]
    refine hbefore.concat fun b hb => ⟨name, x, actions, skipped, rfl, ?_⟩
    obtain rfl := Action.skip.inj hb
    exact hskipped a (by simp)

/-- A move skips only what cannot follow. -/
theorem transition (hc : t.SkipsOutside c.actions) (h : Transition t mode c (.moved d)) :
    t.SkipsOutside d.actions := by
  cases h with
  | popEpsilon =>
    rw [actions_record]
    exact hc.concat (by simp)
  | expand =>
    rw [actions_push]
    exact hc.concat (by simp)
  | @skip name rest =>
    obtain ⟨skipped, hactions, -, hskipped⟩ := actions_note_skipTo ((t.follow.get? name).getD [])
      { c with stack := rest, pending := c.unfinished rest.length }
      (.noRule name (lookahead c.input))
    rw [hactions]
    exact hc.skips hskipped
  | consume =>
    rw [actions_record]
    exact hc.concat (by simp)
  | drop =>
    rw [actions_note]
    exact hc.concat (by simp)

theorem stopped (hc : t.SkipsOutside c.actions) (h : Transition t mode c (.stopped r)) :
    t.SkipsOutside r.actions := by
  obtain ⟨a, hactions, htoken, -⟩ := h.actions_final
  have hactions : r.actions = c.actions ++ [a] := hactions
  rw [hactions]
  refine hc.concat fun b hb => ?_
  simp [hb, Action.token?] at htoken

end SkipsOutside

/-! ## The whole run -/

theorem skipsOutside_parse (t : Table) (mode : Recovery) (tokens : List String) :
    t.SkipsOutside (t.parse mode tokens).actions :=
  run_induction (P := fun c => t.SkipsOutside c.actions) (Q := fun r => t.SkipsOutside r.actions)
    (fun _ _ hc h => hc.transition h) (fun _ _ hc h => hc.stopped h)
    (by simp [SkipsOutside, Configuration.actions, Configuration.initial])

variable {g : Grammar} {follow : FollowSets} {tokens : List String}

theorem exists_scripted_parse (hg : g.WellFormed) (follow : FollowSets) (tokens : List String) :
    ∃ past, Scripted g past ((build g.firstSets follow).parse .panicMode tokens).final :=
  run_induction (P := fun c => ∃ past, Scripted g past c)
    (Q := fun r => ∃ past, Scripted g past r.final)
    (fun _ _ ⟨_, hc⟩ h => hc.transition (fun _ _ _ => mem_alternatives_of_cell? hg) h)
    (fun _ _ ⟨past, hc⟩ h => ⟨past, hc.stopped hg h⟩)
    ⟨[], .initial _ tokens (grammar_build ..)⟩

/-- What the actions of a run in panic mode say. The consumed and the skipped tokens and those that
are left are the input. The errors of a run that has recovered are those that it has reported, there
is at least one, and all but the last one are empty cells and terminals that do not match. The
expansions derive from the start symbol, from left to right, what is settled, with symbols for the
empty word between, and what is left on the stack, and dropped nonterminals are not replaced. A
token is skipped only after an error at a nonterminal that it cannot follow. The `FOLLOW` sets of
the table may be those of any grammar. -/
theorem panicMode_edit_script (hg : g.Attainable) (follow : FollowSets) (tokens : List String) :
    let t := build g.firstSets follow
    let r := t.parse .panicMode tokens
    r.taken ++ r.final.input = tokens ∧
    (∀ errors, r.outcome = .recovered errors → errors ≠ [] ∧ errors = r.reported ∧
      ∀ e ∈ errors.dropLast, e.IsRecoverable) ∧
    (∃ past, g.LeftToRight past [.nonterminal g.start] r.expansions (past ++ r.final.stack) ∧
      eraseEpsilon past = r.settled) ∧
    t.SkipsOutside r.actions := by
  intro t r
  obtain ⟨htokens, hreported⟩ := parse_actions t .panicMode tokens
  obtain ⟨past, hderived, hsettled⟩ := exists_scripted_parse hg.wellFormed follow tokens
  refine ⟨htokens, fun errors hr => ?_, ⟨past, hderived, hsettled⟩, skipsOutside_parse t _ _⟩
  have hrecoverable : ∀ e ∈ r.final.errors, e.IsRecoverable :=
    forall_mem_errors_run (fun _ _ => trivial) (fun _ _ => trivial)
      (by simp [Configuration.initial])
  obtain ⟨hne, rfl⟩ := Run.outcome_eq_recovered hr
  refine ⟨List.append_ne_nil_of_left_ne_nil hne _, hreported, fun e he => hrecoverable e ?_⟩
  -- The last error is the one at which the run has stopped, or one after which it has gone on.
  cases hfailure : r.failure with
  | none => exact List.mem_of_mem_dropLast (by simpa [hfailure] using he)
  | some f => simpa [hfailure] using he

/-- A letter that is no item is skipped, and the end of the text is missing. -/
theorem panicMode_edit_script_of_text :
    let g : Grammar :=
      { rules := [⟨"S", [[.terminal "[", .nonterminal "A", .terminal "]", .terminal "end"]]⟩,
          ⟨"A", [[.terminal "x"]]⟩]
        start := "S" }
    let r := (build g.firstSets g.firstSets.followSets).parse .panicMode ["[", "y", "]"]
    let errors : List SyntaxError :=
      [.noRule "A" (.terminal "y"), .mismatch (.terminal "end") .endMarker]
    Grammar.ofText "S -> [ A ] end; A -> x" = .ok g ∧ r.outcome = .recovered errors ∧
      errors = r.reported ∧ r.taken ++ r.final.input = ["[", "y", "]"] ∧
      ∃ past, g.LeftToRight past [.nonterminal "S"] r.expansions (past ++ r.final.stack) ∧
        eraseEpsilon past = [.terminal "[", .nonterminal "A", .terminal "]", .terminal "end"] := by
  intro g r errors
  have houtcome : r.outcome = .recovered errors := by
    simp only [r, g, errors]
    cbv
  have hsettled : r.settled
      = [.terminal "[", .nonterminal "A", .terminal "]", .terminal "end"] := by
    simp only [r, g]
    cbv
  have hload : Grammar.ofText "S -> [ A ] end; A -> x" = .ok g := rfl
  obtain ⟨htokens, herrors, ⟨past, hderived, hpast⟩, -⟩ :=
    panicMode_edit_script (.ofText hload) g.firstSets.followSets ["[", "y", "]"]
  exact ⟨hload, houtcome, (herrors errors houtcome).2.1, htokens, past, hderived,
    hpast.trans hsettled⟩

end Table

end PredictiveParsing
