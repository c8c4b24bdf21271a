import Mathlib.Tactic.Set
import PredictiveParsing.Parser.Run

/-!
# Transitions of the parser

All that a checked move can do, case by case, and what this means for whole runs.

## Main definitions

* `Configuration.Transition`: a checked move with the reason for it.

## Main statements

* `Configuration.step_spec`: every checked move is a transition.
* `Configuration.run_induction`: what moves preserve holds where the run stops.
-/

namespace PredictiveParsing.Configuration

variable {t : Table} {mode : Recovery} {c d : Configuration}

/-- A checked move of the parser with the reason for it. -/
inductive Transition (t : Table) (mode : Recovery) (c : Configuration) : Progress → Prop
  /-- Stack and input are used up. -/
  | accept (hstack : c.stack = []) (hinput : c.input = []) :
      Transition t mode c (.stopped ⟨c.record .accept, none⟩)
  /-- The stack is used up, the input is not. -/
  | incomplete (hstack : c.stack = []) (hinput : c.input ≠ []) :
      Transition t mode c (.stopped ⟨c.record (.error (.incompleteConsumption c.input)),
        some (.incompleteConsumption c.input)⟩)
  | popEpsilon {rest : List Symbol} (hstack : c.stack = .epsilon :: rest) :
      Transition t mode c (.moved ({ c with stack := rest }.record .popEpsilon))
  | expand {name : String} {rest : List Symbol} {p : Alternative}
      (hstack : c.stack = .nonterminal name :: rest)
      (hnew : ¬ (c.unfinished rest.length).any (·.name == name))
      (hcell : t.cell? name (lookahead c.input) = some p) :
      Transition t mode c
        (.moved ({ c with stack := rest, pending := c.unfinished rest.length }.push name p))
  /-- The nonterminal is being expanded already. -/
  | repetition {name : String} {rest : List Symbol} (hstack : c.stack = .nonterminal name :: rest)
      (hold : (c.unfinished rest.length).any (·.name == name)) :
      Transition t mode c (.stopped ⟨c.record (.error (.leftRecursion name (lookahead c.input))),
        some (.leftRecursion name (lookahead c.input))⟩)
  /-- The cell is empty, and this ends the run. -/
  | noRule {name : String} {rest : List Symbol} (hmode : mode = .abort)
      (hstack : c.stack = .nonterminal name :: rest)
      (hnew : ¬ (c.unfinished rest.length).any (·.name == name))
      (hcell : t.cell? name (lookahead c.input) = none) :
      Transition t mode c
        (.stopped ({ c with stack := rest, pending := c.unfinished rest.length }.failAt
          (.nonterminal name) (.noRule name (lookahead c.input))))
  /-- The cell is empty, and the parser skips to a token that can follow. -/
  | skip {name : String} {rest : List Symbol} (hmode : mode = .panicMode)
      (hstack : c.stack = .nonterminal name :: rest)
      (hnew : ¬ (c.unfinished rest.length).any (·.name == name))
      (hcell : t.cell? name (lookahead c.input) = none) :
      Transition t mode c
        (.moved (({ c with stack := rest, pending := c.unfinished rest.length }.note
          (.noRule name (lookahead c.input))).skipTo ((t.follow.get? name).getD [])))
  | consume {a : String} {rest : List Symbol} {more : List String}
      (hstack : c.stack = .terminal a :: rest) (hinput : c.input = a :: more) :
      Transition t mode c
        (.moved ({ c with stack := rest, input := more, pending := [] }.record (.consume a)))
  /-- The terminal does not match, and this ends the run. -/
  | mismatch {top : Symbol} {rest : List Symbol} (hmode : mode = .abort)
      (hstack : c.stack = top :: rest) (htop : top.isTerminal) (hne : top ≠ lookahead c.input) :
      Transition t mode c
        (.stopped ({ c with stack := rest }.failAt top (.mismatch top (lookahead c.input))))
  /-- The terminal does not match and is dropped. -/
  | drop {top : Symbol} {rest : List Symbol} (hmode : mode = .panicMode)
      (hstack : c.stack = top :: rest) (htop : top.isTerminal) (hne : top ≠ lookahead c.input) :
      Transition t mode c
        (.moved ({ c with stack := rest }.note (.mismatch top (lookahead c.input))))
  /-- The end marker meets the end of the input. -/
  | endMarker {rest : List Symbol} (hstack : c.stack = .endMarker :: rest) (hinput : c.input = []) :
      Transition t mode c (.stopped ⟨{ c with stack := rest }.record .accept, none⟩)

theorem transition_mismatch {top : Symbol} {rest : List Symbol} (hstack : c.stack = top :: rest)
    (htop : top.isTerminal) (hne : top ≠ lookahead c.input) :
    Transition t mode c ({ c with stack := rest }.mismatch mode top) := by
  cases mode with
  | abort => exact .mismatch rfl hstack htop hne
  | panicMode => exact .drop rfl hstack htop hne

theorem transition_expand {name : String} {rest : List Symbol}
    (hstack : c.stack = .nonterminal name :: rest)
    (hnew : ¬ (c.unfinished rest.length).any (·.name == name)) :
    Transition t mode c
      ({ c with stack := rest, pending := c.unfinished rest.length }.expand t mode name) := by
  unfold Configuration.expand
  split
  next p hcell => exact .expand hstack hnew hcell
  next hcell =>
    cases mode with
    | abort => exact .noRule rfl hstack hnew hcell
    | panicMode => exact .skip rfl hstack hnew hcell

theorem repetition?_of_stack {name : String} {rest : List Symbol}
    (hstack : c.stack = .nonterminal name :: rest) :
    c.repetition? = if (c.unfinished rest.length).any (·.name == name) then
      some (.leftRecursion name (lookahead c.input)) else none := by
  simp only [repetition?, hstack]

/-- Every checked move is a transition. -/
theorem step_spec (t : Table) (mode : Recovery) (c : Configuration) :
    Transition t mode c (c.step t mode) := by
  obtain ⟨stack, input, pending, errors, trace, tree⟩ := c
  cases stack with
  | nil =>
    cases input with
    | nil => exact .accept rfl rfl
    | cons a more => exact .incomplete rfl (by simp)
  | cons top rest =>
    cases top with
    | epsilon => exact .popEpsilon rfl
    | nonterminal name =>
      set c : Configuration := ⟨.nonterminal name :: rest, input, pending, errors, trace, tree⟩
      by_cases hold : (c.unfinished rest.length).any (·.name == name)
      · rw [step, repetition?_of_stack rfl, if_pos hold]
        exact .repetition rfl hold
      · rw [step, repetition?_of_stack rfl, if_neg hold]
        exact transition_expand rfl hold
    | terminal a =>
      cases input with
      | nil => exact transition_mismatch rfl rfl (by simp [lookahead])
      | cons token more =>
        simp only [step, repetition?, move, Configuration.consume]
        split
        next h =>
          obtain rfl := eq_of_beq h
          exact .consume rfl rfl
        next h => exact transition_mismatch rfl rfl (by simpa [lookahead] using h)
    | endMarker =>
      cases input with
      | nil => exact .endMarker rfl rfl
      | cons token more => exact transition_mismatch rfl rfl (by simp [lookahead])

theorem mem_unfinished {e : Expansion} {depth : Nat} :
    e ∈ c.unfinished depth ↔ e ∈ c.pending ∧ e.depth ≤ depth := by
  simp [unfinished]

/-- The check finds a pending expansion of the nonterminal that is not finished. -/
theorem exists_pending {name : String} {depth : Nat}
    (h : (c.unfinished depth).any (·.name == name)) :
    ∃ e ∈ c.pending, e.name = name ∧ e.depth ≤ depth := by
  obtain ⟨e, he, hname⟩ := List.any_eq_true.1 h
  obtain ⟨he, hdepth⟩ := mem_unfinished.1 he
  exact ⟨e, he, eq_of_beq hname, hdepth⟩

/-- Where a stack is cut below its top symbol, this symbol comes first in the upper part. -/
theorem exists_split_tail {P : List Symbol → Prop} {s : Symbol} {stack rest : List Symbol}
    {depth : Nat} (hstack : stack = s :: rest) (hdepth : depth ≤ rest.length)
    (h : depth < stack.length →
      ∃ top below, stack = top ++ below ∧ below.length = depth ∧ P top) :
    ∃ top below, rest = top ++ below ∧ below.length = depth ∧ P (s :: top) := by
  subst hstack
  obtain ⟨top, below, hsplit, hlength, htop⟩ := h (Nat.lt_succ_of_le hdepth)
  cases top with
  | nil =>
    have := congrArg List.length hsplit
    simp only [List.length_cons, List.nil_append] at this
    omega
  | cons s' top =>
    obtain ⟨rfl, rfl⟩ := List.cons.inj hsplit
    exact ⟨top, below, rfl, hlength, htop⟩

/-- What moves preserve holds where the run stops. -/
theorem run_induction {P : Configuration → Prop} {Q : Run → Prop}
    (hmove : ∀ c d, P c → Transition t mode c (.moved d) → P d)
    (hstop : ∀ c r, P c → Transition t mode c (.stopped r) → Q r) (hc : P c) :
    Q (c.run t mode) := by
  fun_induction run t mode c with
  | case1 c r h => exact hstop c r hc (h ▸ step_spec t mode c)
  | case2 c d h ih => exact ih (hmove c d hc (h ▸ step_spec t mode c))

/-! ## Errors stay -/

theorem errors_skipTo (follow : List Symbol) (c : Configuration) :
    (c.skipTo follow).errors = c.errors := by
  unfold skipTo
  generalize c.input.takeWhile _ = tokens
  induction tokens generalizing c with
  | nil => rfl
  | cons a tokens ih => exact ih (c.skip a)

/-- An error that has been recorded stays. -/
theorem Transition.errors_eq_nil (h : Transition t mode c (.moved d)) (hd : d.errors = []) :
    c.errors = [] := by
  cases h with
  | skip => simp [errors_skipTo, note] at hd
  | drop => simp [note] at hd
  | _ => exact hd

theorem Transition.errors_final {r : Run} (h : Transition t mode c (.stopped r)) :
    r.final.errors = c.errors := by
  cases h <;> rfl

end PredictiveParsing.Configuration
