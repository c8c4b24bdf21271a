import Mathlib.Computability.Primrec.List
import Mathlib.Computability.TuringMachine.StackTuringMachine
import Mathlib.Data.List.Permutation
import PredictiveParsing.Grammar.Reader
import PredictiveParsing.Proofs.Halting

/-!
# The check for repetitions is exact

The parser stops at a nonterminal that is about to be expanded within its own expansion with no
token consumed between. What lies below does not matter to the moves that have led there. So they
can be made again, and without the check the parser would go on for ever. Where the check finds
nothing, it changes nothing, and the checked parser stops.

## Main definitions

* `Idle`: a move that consumes nothing, in either mode.
* `Configuration.Grown`: the pending expansions have led to what lies above their places.
* `Configuration.Endless`: the moves from a configuration come back to a nonterminal for ever.

## Main statements

* `Configuration.Endless.move`: an endless configuration is followed by another one.
* `Configuration.Grown.transition`: a move preserves the invariant of the pending expansions.
* `Table.endsInLeftRecursion_iff`: the check stops the runs that would not end without it, and no
  others.
-/

namespace PredictiveParsing

open Relation (ReflTransGen TransGen)

/-! ## Moves that consume nothing -/

/-- A move at the lookahead `x` that consumes nothing. -/
inductive Idle (t : Table) (mode : Recovery) (x : Symbol) : List Symbol → List Symbol → Prop
  | popEpsilon (u : List Symbol) : Idle t mode x (.epsilon :: u) u
  | expand {name : String} {p : Alternative} (hcell : t.cell? name x = some p) (u : List Symbol) :
      Idle t mode x (.nonterminal name :: u) (p ++ u)
  /-- Panic mode discards no token, as the next one can follow or there is none. -/
  | noRule {name : String} (hmode : mode = .panicMode) (hcell : t.cell? name x = none)
      (hx : x = .endMarker ∨ x ∈ (t.follow.get? name).getD []) (u : List Symbol) :
      Idle t mode x (.nonterminal name :: u) u
  /-- Panic mode drops a terminal that does not match. -/
  | drop {s : Symbol} (hmode : mode = .panicMode) (hs : s.isTerminal) (hne : s ≠ x)
      (u : List Symbol) : Idle t mode x (s :: u) u

section Idle

variable {t : Table} {mode : Recovery} {x : Symbol} {u v w : List Symbol} {name : String}

/-- What lies below does not matter. -/
theorem Idle.append (h : Idle t mode x u v) (w : List Symbol) :
    Idle t mode x (u ++ w) (v ++ w) := by
  cases h with
  | popEpsilon => exact .popEpsilon _
  | expand hcell u => simpa using Idle.expand hcell (u ++ w)
  | noRule hmode hcell hx => exact .noRule hmode hcell hx _
  | drop hmode hs hne => exact .drop hmode hs hne _

theorem idles_append (h : ReflTransGen (Idle t mode x) u v) (w : List Symbol) :
    ReflTransGen (Idle t mode x) (u ++ w) (v ++ w) :=
  h.lift (· ++ w) fun _ _ hmove => hmove.append w

/-- Moves that consume nothing lead from the nonterminal `name` to itself. -/
def Repeats (t : Table) (mode : Recovery) (x : Symbol) (name : String) : Prop :=
  ∃ u, TransGen (Idle t mode x) [.nonterminal name] (.nonterminal name :: u)

/-- Where moves lead to a nonterminal that repeats, there is always a next move. -/
theorem Repeats.exists_idle (h : Repeats t mode x name)
    (hu : ReflTransGen (Idle t mode x) u (.nonterminal name :: w)) :
    ∃ v w', Idle t mode x u v ∧ ReflTransGen (Idle t mode x) v (.nonterminal name :: w') := by
  rcases ReflTransGen.cases_head hu with rfl | ⟨v, hmove, hrest⟩
  · obtain ⟨y, hy⟩ := h
    obtain ⟨v, hmove, hrest⟩ := TransGen.head'_iff.1 hy
    exact ⟨v ++ w, y ++ w, hmove.append w, idles_append hrest w⟩
  · exact ⟨v, w, hmove, hrest⟩

end Idle

namespace Configuration

variable {t : Table} {mode : Recovery} {c d : Configuration} {s : Symbol}
  {u v below rest : List Symbol} {e : Expansion}

theorem move_of_isTerminal (hs : s.isTerminal) (hne : s ≠ lookahead c.input)
    (hstack : c.stack = s :: rest) :
    c.move t mode = { c with stack := rest }.mismatch mode s := by
  obtain ⟨stack, input, pending, errors, trace, tree⟩ := c
  obtain rfl : stack = s :: rest := hstack
  cases s with
  | terminal a =>
    cases input with
    | nil => rfl
    | cons token more =>
      have hne : a ≠ token := by simpa [lookahead] using hne
      simp [move, consume, hne]
  | endMarker =>
    cases input with
    | nil => exact absurd rfl hne
    | cons token more => rfl
  | _ => simp [Symbol.isTerminal] at hs

theorem move_of_epsilon (hstack : c.stack = .epsilon :: rest) :
    c.move t mode = .moved ({ c with stack := rest }.record .popEpsilon) := by
  simp only [move, hstack]

theorem move_of_nonterminal {name : String} (hstack : c.stack = .nonterminal name :: rest) :
    c.move t mode
      = { c with stack := rest, pending := c.unfinished rest.length }.expand t mode name := by
  simp only [move, hstack]

/-- A move that consumes nothing is made without the check, whatever lies below. -/
theorem exists_move_of_idle (h : Idle t mode (lookahead c.input) u v)
    (hstack : c.stack = u ++ below) :
    ∃ d, c.move t mode = .moved d ∧ d.stack = v ++ below ∧ d.input = c.input := by
  cases h with
  | popEpsilon => exact ⟨_, move_of_epsilon hstack, rfl, rfl⟩
  | @expand name p hcell u =>
    set b : Configuration :=
      { c with stack := u ++ below, pending := c.unfinished (u ++ below).length }
    have hmove : c.move t mode = .moved (b.push name p) := by
      rw [move_of_nonterminal hstack, Configuration.expand]
      simp only [hcell]
      rfl
    exact ⟨_, hmove, by simp [b, push], rfl⟩
  | @noRule name hmode hcell hx =>
    set b : Configuration :=
      { c with stack := v ++ below, pending := c.unfinished (v ++ below).length }
    have hmove : c.move t mode = .moved ((b.note (.noRule name (lookahead c.input))).skipTo
        ((t.follow.get? name).getD [])) := by
      rw [move_of_nonterminal hstack, Configuration.expand]
      simp only [hcell, hmode]
      rfl
    have hskip : (b.note (.noRule name (lookahead c.input))).skipTo
        ((t.follow.get? name).getD []) = b.note (.noRule name (lookahead c.input)) :=
      skipTo_of_skipOne?_eq_none (skipOne?_eq_none.2 hx)
    rw [hskip] at hmove
    exact ⟨_, hmove, rfl, rfl⟩
  | @drop s hmode hs hne =>
    have hmove : c.move t mode = .moved ({ c with stack := v ++ below }.note
        (.mismatch s (lookahead c.input))) := by
      rw [move_of_isTerminal hs hne hstack, hmode]
      rfl
    exact ⟨_, hmove, rfl, rfl⟩

/-! ## Endless moves -/

/-- The upper part of the stack is brought, by moves that consume nothing, to a nonterminal that is
brought to itself. -/
def Endless (t : Table) (mode : Recovery) (c : Configuration) : Prop :=
  ∃ top below name u, c.stack = top ++ below ∧ Repeats t mode (lookahead c.input) name ∧
    ReflTransGen (Idle t mode (lookahead c.input)) top (.nonterminal name :: u)

/-- An endless configuration is followed by another one. -/
theorem Endless.move (h : c.Endless t mode) : ∃ d, c.move t mode = .moved d ∧ d.Endless t mode := by
  obtain ⟨top, below, name, u, hstack, hrepeats, htop⟩ := h
  obtain ⟨next, w, hidle, hnext⟩ := hrepeats.exists_idle htop
  obtain ⟨d, hmove, hd, hinput⟩ := exists_move_of_idle hidle hstack
  exact ⟨d, hmove, next, below, name, w, hd, hinput ▸ hrepeats, hinput ▸ hnext⟩

/-- Without the check, the parser does not stop after an endless configuration. -/
theorem Endless.not_halts {n : Nat} {r : Run} (h : c.Endless t mode) :
    ¬ Halts (Configuration.move t mode) c n r := by
  intro hhalts
  induction hhalts with
  | stop hstop =>
    obtain ⟨d, hmove, -⟩ := h.move
    simp [hmove] at hstop
  | move hmoved _ ih =>
    obtain ⟨d, hmove, hd⟩ := h.move
    obtain rfl := Progress.moved.inj (hmove.symm.trans hmoved)
    exact ih hd

/-! ## Pending expansions -/

/-- Each pending expansion, unless it is finished, has been brought, by moves that consume nothing,
to what now lies above the place of its nonterminal. -/
def Grown (t : Table) (mode : Recovery) (c : Configuration) : Prop :=
  ∀ e ∈ c.pending, e.depth < c.stack.length → ∃ top below, c.stack = top ++ below ∧
    below.length = e.depth ∧
    TransGen (Idle t mode (lookahead c.input)) [.nonterminal e.name] top

namespace Grown

theorem initial (t : Table) (mode : Recovery) (tokens : List String) :
    (Configuration.initial t tokens).Grown t mode := by
  simp [Grown, Configuration.initial]

theorem of_pending_eq_nil (h : c.pending = []) : c.Grown t mode := by
  simp [Grown, h]

/-- An unfinished expansion has led to the symbol on top of the stack. -/
theorem cons (hc : c.Grown t mode) (hstack : c.stack = s :: rest) (he : e ∈ c.pending)
    (hdepth : e.depth ≤ rest.length) :
    ∃ top below, rest = top ++ below ∧ below.length = e.depth ∧
      TransGen (Idle t mode (lookahead c.input)) [.nonterminal e.name] (s :: top) :=
  exists_split_tail hstack hdepth (hc e he)

/-- A move that takes the top symbol from the stack and consumes nothing. -/
theorem pop (hc : c.Grown t mode) (hstack : c.stack = s :: rest) (hd : d.stack = rest)
    (hinput : d.input = c.input) (hpending : d.pending ⊆ c.pending)
    (hidle : ∀ u, Idle t mode (lookahead c.input) (s :: u) u) : d.Grown t mode := by
  intro e he hdepth
  rw [hd] at hdepth ⊢
  obtain ⟨top, below, hrest, hlength, hmoves⟩ := hc.cons hstack (hpending he) hdepth.le
  exact ⟨top, below, hrest, hlength, hinput ▸ hmoves.tail (hidle top)⟩

theorem push {name : String} {p : Alternative} (hc : c.Grown t mode)
    (hstack : c.stack = .nonterminal name :: rest)
    (hcell : t.cell? name (lookahead c.input) = some p) :
    Grown t mode
      ({ c with stack := rest, pending := c.unfinished rest.length }.push name p) := by
  intro e he _
  rcases List.mem_cons.1 he with rfl | he
  · have hexpand : Idle t mode (lookahead c.input) [.nonterminal name] p := by
      simpa using Idle.expand hcell []
    exact ⟨p, rest, rfl, rfl, .single hexpand⟩
  · obtain ⟨he, hle⟩ := mem_unfinished.1 he
    obtain ⟨top, below, hrest, hlength, hmoves⟩ := hc.cons hstack he hle
    exact ⟨p ++ top, below, by simp [Configuration.push, record, hrest], hlength,
      hmoves.tail (.expand hcell top)⟩

/-- A move preserves the invariant, also where panic mode drops a symbol and leaves what is pending
as it is. -/
theorem transition (hc : c.Grown t mode) (h : Transition t mode c (.moved d)) :
    d.Grown t mode := by
  cases h with
  | popEpsilon hstack => exact hc.pop hstack rfl rfl (List.Subset.refl _) .popEpsilon
  | expand hstack _ hcell => exact hc.push hstack hcell
  | @skip name rest hmode hstack _ hcell =>
    rcases skipTo_eq_self_or_pending_eq_nil ((t.follow.get? name).getD [])
      (note { c with stack := rest, pending := c.unfinished rest.length }
        (.noRule name (lookahead c.input))) with ⟨hnone, hstay⟩ | hnil
    · have hx := skipOne?_eq_none.1 hnone
      rw [hstay]
      exact hc.pop hstack rfl rfl (List.filter_subset_self _) (.noRule hmode hcell hx)
    · exact of_pending_eq_nil hnil
  | consume => exact of_pending_eq_nil rfl
  | drop hmode hstack htop hne =>
    exact hc.pop hstack rfl rfl (List.Subset.refl _) (.drop hmode htop hne)

/-- Where the check finds a repetition, the moves would never end. -/
theorem endless (hc : c.Grown t mode) {name : String}
    (hstack : c.stack = .nonterminal name :: rest)
    (hold : (c.unfinished rest.length).any (·.name == name)) : c.Endless t mode := by
  obtain ⟨e, he, rfl, hdepth⟩ := exists_pending hold
  obtain ⟨top, below, rfl, -, hmoves⟩ := hc.cons hstack he hdepth
  exact ⟨_, below, e.name, top, hstack, ⟨top, hmoves⟩, .refl⟩

end Grown

/-! ## With and without the check -/

theorem step_eq_move (h : c.repetition? = none) : c.step t mode = c.move t mode := by
  rw [step, h]

theorem repetition?_of_step_eq_moved (h : c.step t mode = .moved d) : c.repetition? = none := by
  unfold step at h
  split at h
  · cases h
  next hnone => exact hnone

end Configuration

/-- A left recursion, of any nonterminal at any lookahead. -/
def SyntaxError.IsLeftRecursion : SyntaxError → Prop
  | leftRecursion _ _ => True
  | _ => False

/-- The error at which a run has stopped is a left recursion. -/
def Run.StopsAtRepetition (r : Run) : Prop := ∃ e, r.failure = some e ∧ e.IsLeftRecursion

/-- The last error of an outcome, alone or after those from which the parser has recovered, is a left
recursion. -/
def Outcome.EndsInLeftRecursion : Outcome → Prop
  | accepted => False
  | rejected e => e.IsLeftRecursion
  | recovered es => ∃ e, es.getLast? = some e ∧ e.IsLeftRecursion

namespace Configuration

variable {t : Table} {mode : Recovery} {c d : Configuration} {r : Run}

theorem repetition?_eq_some {e : SyntaxError} (h : c.repetition? = some e) :
    e.IsLeftRecursion ∧ ∃ name rest, c.stack = .nonterminal name :: rest ∧
      (c.unfinished rest.length).any (·.name == name) := by
  unfold repetition? at h
  split at h
  next name rest hstack =>
    split at h
    next hold =>
      obtain rfl := Option.some.inj h
      exact ⟨trivial, name, rest, hstack, hold⟩
    next => cases h
  next => cases h

/-- A move that stops without a repetition fails, if at all, for another reason. -/
theorem Transition.not_stopsAtRepetition (h : Transition t mode c (.stopped r))
    (hnone : c.repetition? = none) : ¬ r.StopsAtRepetition := by
  rintro ⟨e, he, hleft⟩
  cases h with
  | repetition hstack hold => simp [repetition?_of_stack hstack, hold] at hnone
  | accept => cases he
  | endMarker => cases he
  | _ =>
    obtain rfl := Option.some.inj he
    exact hleft

/-- A checked move that stops has found a repetition, or the same move without the check stops. -/
theorem step_eq_stopped (h : c.step t mode = .stopped r) :
    (r.StopsAtRepetition ∧ ∃ name rest, c.stack = .nonterminal name :: rest ∧
        (c.unfinished rest.length).any (·.name == name)) ∨
      (¬ r.StopsAtRepetition ∧ c.move t mode = .stopped r) := by
  have hspec := h ▸ step_spec t mode c
  cases hrep : c.repetition? with
  | none => exact .inr ⟨hspec.not_stopsAtRepetition hrep, step_eq_move hrep ▸ h⟩
  | some e =>
    obtain ⟨hleft, hrepeated⟩ := repetition?_eq_some hrep
    simp only [step, hrep] at h
    obtain rfl := Progress.stopped.inj h
    exact .inl ⟨⟨e, rfl, hleft⟩, hrepeated⟩

/-- A run stops at a repetition, and would not stop without the check, or it is the run without the
check. -/
theorem Grown.run_cases (hc : c.Grown t mode) :
    ((c.run t mode).StopsAtRepetition ∧ ∀ n r, ¬ Halts (move t mode) c n r) ∨
      (¬ (c.run t mode).StopsAtRepetition ∧ ∃ n, Halts (move t mode) c n (c.run t mode)) := by
  fun_induction run t mode c with
  | case1 c r h =>
    rcases step_eq_stopped h with ⟨hr, name, rest, hstack, hold⟩ | ⟨hr, hmove⟩
    · exact .inl ⟨hr, fun n r => (hc.endless hstack hold).not_halts⟩
    · exact .inr ⟨hr, 1, .stop hmove⟩
  | case2 c d h ih =>
    have hmove : c.move t mode = .moved d := step_eq_move (repetition?_of_step_eq_moved h) ▸ h
    rcases ih (hc.transition (h ▸ step_spec t mode c)) with ⟨hr, hnot⟩ | ⟨hr, n, hhalts⟩
    · refine .inl ⟨hr, fun n r hhalts => ?_⟩
      cases hhalts with
      | stop hstop => simp [hmove] at hstop
      | move hmoved hd =>
        obtain rfl := Progress.moved.inj (hmove.symm.trans hmoved)
        exact hnot _ _ hd
    · exact .inr ⟨hr, n + 1, .move hmove hhalts⟩

/-! ## The last error -/

section Recorded

variable {P : SyntaxError → Prop} (hnoRule : ∀ name x, P (.noRule name x))
  (hmismatch : ∀ s x, P (.mismatch s x))
include hnoRule hmismatch

/-- The errors after which the parser goes on are empty cells and terminals that do not match. -/
theorem Transition.forall_mem_errors (h : Transition t mode c (.moved d))
    (hc : ∀ e ∈ c.errors, P e) : ∀ e ∈ d.errors, P e := by
  have hnote : ∀ {b : Configuration} {e : SyntaxError}, b.errors = c.errors → P e →
      ∀ f ∈ (b.note e).errors, P f := by
    intro b e hb he f hf
    rcases List.mem_append.1 hf with hf | hf
    · exact hc f (hb ▸ hf)
    · exact List.mem_singleton.1 hf ▸ he
  cases h with
  | skip =>
    rw [errors_skipTo]
    exact hnote rfl (hnoRule _ _)
  | drop => exact hnote rfl (hmismatch _ _)
  | _ => exact hc

theorem forall_mem_errors_run (hc : ∀ e ∈ c.errors, P e) :
    ∀ e ∈ (c.run t mode).final.errors, P e :=
  run_induction (P := fun c => ∀ e ∈ c.errors, P e) (Q := fun r => ∀ e ∈ r.final.errors, P e)
    (fun _ _ hc h => h.forall_mem_errors hnoRule hmismatch hc)
    (fun _ _ hc h => h.errors_final ▸ hc) hc

end Recorded

/-- The errors from which the parser recovers are no left recursions. -/
theorem not_isLeftRecursion_of_mem_errors (hc : ∀ e ∈ c.errors, ¬ e.IsLeftRecursion) :
    ∀ e ∈ (c.run t mode).final.errors, ¬ e.IsLeftRecursion :=
  forall_mem_errors_run (fun _ _ => id) (fun _ _ => id) hc

end Configuration

/-- The outcome tells whether the run has stopped at a repetition. -/
theorem Run.endsInLeftRecursion_outcome {r : Run}
    (hr : ∀ e ∈ r.final.errors, ¬ e.IsLeftRecursion) :
    r.outcome.EndsInLeftRecursion ↔ r.StopsAtRepetition := by
  obtain ⟨final, failure⟩ := r
  unfold outcome StopsAtRepetition
  cases herrors : final.errors with
  | nil => cases failure <;> simp [Outcome.EndsInLeftRecursion]
  | cons e es =>
    cases failure with
    | none =>
      simp only [Outcome.EndsInLeftRecursion, Option.toList_none, List.append_nil]
      refine ⟨fun ⟨f, hf, hleft⟩ => ?_, fun ⟨f, hf, _⟩ => by cases hf⟩
      exact absurd hleft (hr f (herrors ▸ List.mem_of_getLast? hf))
    | some f =>
      simp only [Outcome.EndsInLeftRecursion, Option.toList_some, List.getLast?_concat,
        Option.some.injEq]

namespace Table

open PredictiveParsing.Configuration

/-- With any table, in either mode and on any input, a run ends in a left recursion if and only if
the parser would not stop without the check for repetitions. Otherwise the parser without the check
makes the same run. -/
theorem endsInLeftRecursion_iff (t : Table) (mode : Recovery) (tokens : List String) :
    ((t.parse mode tokens).outcome.EndsInLeftRecursion ↔
      ¬ ∃ n r, Halts (move t mode) (initial t tokens) n r) ∧
    (¬ (t.parse mode tokens).outcome.EndsInLeftRecursion →
      ∃ n, Halts (move t mode) (initial t tokens) n (t.parse mode tokens)) := by
  have herrors : ∀ e ∈ (t.parse mode tokens).final.errors, ¬ e.IsLeftRecursion :=
    not_isLeftRecursion_of_mem_errors (by simp [initial])
  rw [Run.endsInLeftRecursion_outcome herrors]
  rcases (Grown.initial t mode tokens).run_cases with ⟨hstops, hnot⟩ | ⟨hstops, hhalts⟩
  · have hnone : ¬ ∃ n r, Halts (move t mode) (initial t tokens) n r := by
      rintro ⟨n, r, h⟩
      exact hnot n r h
    exact ⟨⟨fun _ => hnone, fun _ => hstops⟩, fun h => absurd hstops h⟩
  · obtain ⟨n, hn⟩ := hhalts
    exact ⟨⟨fun h => absurd h hstops, fun h => absurd ⟨n, _, hn⟩ h⟩, fun _ => ⟨n, hn⟩⟩

/-- A left recursion that is in the table, since its alternative takes the place of the other one. -/
theorem endsInLeftRecursion_iff_of_text :
    let g : Grammar :=
      { rules := [⟨"S", [[.terminal "b"], [.nonterminal "S", .terminal "a"]]⟩]
        start := "S" }
    let t := build g.firstSets g.firstSets.followSets
    Grammar.ofText "S -> b | S a" = .ok g ∧
      (t.parse .abort ["b", "a"]).outcome = .rejected (.leftRecursion "S" (.terminal "b")) ∧
      ¬ ∃ n r, Halts (move t .abort) (initial t ["b", "a"]) n r := by
  intro g t
  have houtcome :
      (t.parse .abort ["b", "a"]).outcome = .rejected (.leftRecursion "S" (.terminal "b")) := by
    simp only [t, g]
    cbv
  refine ⟨rfl, houtcome, (endsInLeftRecursion_iff t .abort ["b", "a"]).1.1 ?_⟩
  rw [houtcome]
  trivial

end Table

end PredictiveParsing
