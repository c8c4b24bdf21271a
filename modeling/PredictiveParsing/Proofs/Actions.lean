import PredictiveParsing.Proofs.Halting

/-!
# The actions of a run

A token leaves the input when it is consumed or skipped, and an error is recorded when it is
reported. So the input of a run and its errors can be read off its actions, in either mode and with
any table.

## Main definitions

* `Configuration.actions`, `Run.actions`: what has been done, in order.
* `Run.taken`, `Run.consumed`, `Run.reported`: the tokens that have left the input, those among them
  that have met a terminal on the stack, and the errors among the actions.

## Main statements

* `Configuration.Transition.actions`, `Configuration.Transition.actions_final`: what a move adds.
* `Table.parse_actions`: the tokens and the errors of a run, read off its actions.
-/

namespace PredictiveParsing

/-- The token that an action takes from the input. -/
def Action.token? : Action → Option String
  | consume a => some a
  | skip a => some a
  | _ => none

/-- The token that meets the same terminal on the stack. -/
def Action.consumed? : Action → Option String
  | consume a => some a
  | _ => none

/-- The error that an action reports. -/
def Action.error? : Action → Option SyntaxError
  | error e => some e
  | _ => none

theorem Action.token?_skips (skipped : List String) :
    (skipped.map Action.skip).filterMap Action.token? = skipped := by
  simp [List.filterMap_map, Function.comp_def, token?]

theorem Action.error?_skips (skipped : List String) :
    (skipped.map Action.skip).filterMap Action.error? = [] := by
  simp [List.filterMap_map, Function.comp_def, error?]

namespace Configuration

/-- What has been done up to a configuration, in order. -/
def actions (c : Configuration) : List Action := c.trace.reverse.map Step.action

/-- The tokens that have met a terminal on the stack up to a configuration. -/
def consumed (c : Configuration) : List String := c.actions.filterMap Action.consumed?

end Configuration

namespace Run

/-- What a run has done, in order. -/
def actions (r : Run) : List Action := r.steps.map Step.action

/-- The tokens that have left the input. -/
def taken (r : Run) : List String := r.actions.filterMap Action.token?

/-- The tokens that have met a terminal on the stack. -/
def consumed (r : Run) : List String := r.actions.filterMap Action.consumed?

/-- The errors that have been reported. -/
def reported (r : Run) : List SyntaxError := r.actions.filterMap Action.error?

end Run

namespace Configuration

variable {t : Table} {mode : Recovery} {follow : List Symbol} {c d : Configuration} {n : Nat}
  {r : Run}

@[simp] theorem actions_record (c : Configuration) (a : Action) :
    (c.record a).actions = c.actions ++ [a] := by
  simp [actions, record]

@[simp] theorem actions_note (c : Configuration) (e : SyntaxError) :
    (c.note e).actions = c.actions ++ [.error e] := actions_record c (.error e)

@[simp] theorem actions_skip (c : Configuration) (token : String) :
    (c.skip token).actions = c.actions ++ [.skip token] := actions_record c (.skip token)

@[simp] theorem actions_push (c : Configuration) (name : String) (p : Alternative) :
    (c.push name p).actions = c.actions ++ [.expand name p] := actions_record c (.expand name p)

@[simp] theorem actions_failAt (c : Configuration) (top : Symbol) (e : SyntaxError) :
    (c.failAt top e).final.actions = c.actions ++ [.error e] := actions_record c (.error e)

/-- What is discarded is skipped in order, and no token of `follow` is. -/
theorem Discards.actions (h : Discards follow c n d) :
    ∃ skipped : List String, d.actions = c.actions ++ skipped.map .skip ∧
      c.input = skipped ++ d.input ∧ ∀ a ∈ skipped, .terminal a ∉ follow := by
  induction h with
  | stop => exact ⟨[], by simp, rfl, by simp⟩
  | skip hone _ ih =>
    obtain ⟨token, more, hinput, hnot, rfl⟩ := skipOne?_eq_some hone
    obtain ⟨skipped, hactions, hrest, hfollow⟩ := ih
    refine ⟨token :: skipped, by simp [hactions], ?_, ?_⟩
    · rw [hinput, List.cons_append, ← hrest]
      simp [Configuration.skip, hinput]
    · simpa using ⟨hnot, hfollow⟩

@[simp] theorem consumed_record (c : Configuration) (a : Action) :
    (c.record a).consumed = c.consumed ++ a.consumed?.toList := by
  cases h : a.consumed? <;> simp [consumed, h]

theorem consumed_record_of_none {a : Action} (h : a.consumed? = none) :
    (c.record a).consumed = c.consumed := by
  simp [h]

/-- After an error, the tokens that are discarded are skipped in order. -/
theorem actions_note_skipTo (follow : List Symbol) (c : Configuration) (e : SyntaxError) :
    ∃ skipped : List String,
      ((c.note e).skipTo follow).actions = c.actions ++ .error e :: skipped.map .skip ∧
        c.input = skipped ++ ((c.note e).skipTo follow).input ∧
        ∀ a ∈ skipped, .terminal a ∉ follow := by
  obtain ⟨n, -, h⟩ := exists_discards follow (c.note e)
  obtain ⟨skipped, hactions, hinput, hskipped⟩ := h.actions
  exact ⟨skipped, by simp [hactions], hinput, hskipped⟩

/-- What a move adds to the actions accounts for the tokens that have left the input and for the
errors that are new. -/
theorem Transition.actions (h : Transition t mode c (.moved d)) :
    ∃ new, d.actions = c.actions ++ new ∧ c.input = new.filterMap Action.token? ++ d.input ∧
      d.errors = c.errors ++ new.filterMap Action.error? := by
  cases h with
  | popEpsilon => exact ⟨[.popEpsilon], actions_record .., rfl, (List.append_nil _).symm⟩
  | @expand name _ p => exact ⟨[.expand name p], actions_push .., rfl, (List.append_nil _).symm⟩
  | @skip name rest =>
    obtain ⟨skipped, hactions, hinput, -⟩ := actions_note_skipTo ((t.follow.get? name).getD [])
      { c with stack := rest, pending := c.unfinished rest.length }
      (.noRule name (lookahead c.input))
    refine ⟨.error (.noRule name (lookahead c.input)) :: skipped.map .skip, hactions, ?_, ?_⟩
    · rw [List.filterMap_cons_none rfl, Action.token?_skips]
      exact hinput
    · rw [errors_skipTo, List.filterMap_cons_some (f := Action.error?) rfl, Action.error?_skips]
      rfl
  | @consume a _ more _ hinput =>
    exact ⟨[.consume a], actions_record .., hinput, (List.append_nil _).symm⟩
  | @drop top =>
    exact ⟨[.error (.mismatch top (lookahead c.input))], actions_note .., rfl, rfl⟩

/-- The action at which a run stops takes no token, and it reports the error at which the run stops,
if any. -/
theorem Transition.actions_final (h : Transition t mode c (.stopped r)) :
    ∃ a, r.final.actions = c.actions ++ [a] ∧ a.token? = none ∧ r.final.input = c.input ∧
      a.error? = r.failure := by
  cases h with
  | accept => exact ⟨_, actions_record .., rfl, rfl, rfl⟩
  | incomplete => exact ⟨_, actions_record .., rfl, rfl, rfl⟩
  | repetition => exact ⟨_, actions_record .., rfl, rfl, rfl⟩
  | noRule => exact ⟨_, actions_failAt .., rfl, rfl, rfl⟩
  | mismatch => exact ⟨_, actions_failAt .., rfl, rfl, rfl⟩
  | endMarker => exact ⟨_, actions_record .., rfl, rfl, rfl⟩

/-- At the end of a run, nothing more is consumed. -/
theorem Transition.consumed_final (h : Transition t mode c (.stopped r)) :
    r.consumed = c.consumed ∧ r.final.input = c.input := by
  obtain ⟨a, hactions, htoken, hinput, -⟩ := h.actions_final
  have hnone : a.consumed? = none := by cases a <;> simp_all [Action.token?, Action.consumed?]
  have hactions : r.actions = c.actions ++ [a] := hactions
  exact ⟨by simp [Run.consumed, Configuration.consumed, hactions, hnone], hinput⟩

/-- In abort mode, all tokens that leave the input are consumed. -/
theorem Transition.consumed_append_input (h : Transition t .abort c (.moved d)) :
    d.consumed ++ d.input = c.consumed ++ c.input := by
  cases h with
  | @popEpsilon rest =>
    have hsame : ({ c with stack := rest }.record .popEpsilon).consumed = c.consumed :=
      consumed_record_of_none rfl
    exact congrArg (· ++ c.input) hsame
  | @expand name rest p =>
    have hsame : (push name p
        { c with stack := rest, pending := c.unfinished rest.length }).consumed = c.consumed :=
      consumed_record_of_none rfl
    exact congrArg (· ++ c.input) hsame
  | @consume a rest more _ hinput =>
    have hmore : ({ c with stack := rest, input := more, pending := [] }.record
        (.consume a)).consumed = c.consumed ++ [a] := consumed_record ..
    rw [hmore, hinput, List.append_cons c.consumed a more]
    rfl
  | skip hmode => cases hmode
  | drop hmode => cases hmode

end Configuration

namespace Table

open PredictiveParsing.Configuration

/-- The tokens that a run has taken and those that it has left are its input, and its errors are
those that it has reported. -/
theorem parse_actions (t : Table) (mode : Recovery) (tokens : List String) :
    (t.parse mode tokens).taken ++ (t.parse mode tokens).final.input = tokens ∧
      (t.parse mode tokens).final.errors ++ (t.parse mode tokens).failure.toList
        = (t.parse mode tokens).reported := by
  refine run_induction
    (P := fun c => c.actions.filterMap Action.token? ++ c.input = tokens ∧
      c.errors = c.actions.filterMap Action.error?)
    (Q := fun r => r.taken ++ r.final.input = tokens ∧
      r.final.errors ++ r.failure.toList = r.reported)
    (fun c d hc hmove => ?_) (fun c r hc hstop => ?_) ⟨rfl, rfl⟩
  · obtain ⟨new, hactions, hinput, herrors⟩ := hmove.actions
    obtain ⟨htokens, hreported⟩ := hc
    rw [hinput] at htokens
    exact ⟨by simpa [hactions] using htokens, by simp [hactions, herrors, hreported]⟩
  · obtain ⟨a, hactions, htoken, hinput, hfailure⟩ := hstop.actions_final
    obtain ⟨htokens, hreported⟩ := hc
    have hactions : r.actions = c.actions ++ [a] := hactions
    refine ⟨?_, ?_⟩
    · simpa [Run.taken, hactions, htoken, hinput] using htokens
    · rw [Run.reported, hactions, hstop.errors_final, hreported, ← hfailure]
      cases h : a.error? <;> simp [h]

end Table

end PredictiveParsing
