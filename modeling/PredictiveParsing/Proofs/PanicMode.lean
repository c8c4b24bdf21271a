import PredictiveParsing.Proofs.LoopGuard

/-!
# Panic mode goes on where abort mode stops

The two modes make the same moves up to the first error from which the parser can recover. There
abort mode stops, while panic mode records the error and goes on. Since a run only ever adds to its
trace, its tree and its errors, all that abort mode has done is then the beginning of what panic
mode does. A run without such an error is the same in both modes.

## Main definitions

* `SyntaxError.IsRecoverable`: the errors from which the parser recovers in panic mode.
* `Configuration.Extends`: more has been done, and nothing of it is taken back.
* `Configuration.Parts`: the next move ends the run in abort mode only.
* `Run.Resumes`: a run in panic mode that goes on where one in abort mode has stopped.

## Main statements

* `Configuration.step_modes`: the next move is the same in both modes, or the modes part there.
* `Configuration.run_modes`: the runs are the same in both modes, or one goes on from the other.
* `Table.panicMode_extends_abort`: how the runs on an input in the two modes are related.
-/

namespace PredictiveParsing

/-- The errors from which the parser recovers in panic mode: a cell is empty, or a terminal does not
match. -/
def SyntaxError.IsRecoverable : SyntaxError → Prop
  | noRule _ _ => True
  | mismatch _ _ => True
  | _ => False

namespace Configuration

variable {t : Table} {mode : Recovery} {b c d : Configuration} {r : Run}

/-! ## Runs add to what has been done -/

/-- What has been done at `c` has been done at `d` before anything else. The trace and the tree have
their latest entries first. -/
structure Extends (c d : Configuration) : Prop where
  trace : c.trace <:+ d.trace
  tree : c.tree <:+ d.tree
  errors : c.errors <+: d.errors

theorem Extends.refl (c : Configuration) : c.Extends c :=
  ⟨List.suffix_rfl, List.suffix_rfl, List.prefix_rfl⟩

theorem Extends.trans (h : b.Extends c) (h' : c.Extends d) : b.Extends d :=
  ⟨h.trace.trans h'.trace, h.tree.trans h'.tree, h.errors.trans h'.errors⟩

theorem extends_skip (c : Configuration) (token : String) : c.Extends (c.skip token) :=
  ⟨List.suffix_cons .., List.suffix_rfl, List.prefix_rfl⟩

theorem Discards.extends {follow : List Symbol} {n : Nat} (h : Discards follow c n d) :
    c.Extends d := by
  induction h with
  | stop => exact .refl _
  | skip hone _ ih =>
    obtain ⟨token, -, -, -, rfl⟩ := skipOne?_eq_some hone
    exact (extends_skip _ token).trans ih

theorem extends_skipTo (follow : List Symbol) (c : Configuration) :
    c.Extends (c.skipTo follow) := by
  obtain ⟨n, -, h⟩ := exists_discards follow c
  exact h.extends

/-- A move adds to what has been done. -/
theorem Transition.extends (h : Transition t mode c (.moved d)) : c.Extends d := by
  cases h with
  | popEpsilon => exact ⟨List.suffix_cons .., List.suffix_rfl, List.prefix_rfl⟩
  | expand => exact ⟨List.suffix_cons .., List.suffix_cons .., List.prefix_rfl⟩
  | skip =>
    refine Extends.trans ?_ (extends_skipTo ..)
    exact ⟨List.suffix_cons .., List.suffix_rfl, List.prefix_append ..⟩
  | consume => exact ⟨List.suffix_cons .., List.suffix_rfl, List.prefix_rfl⟩
  | drop => exact ⟨List.suffix_cons .., List.suffix_rfl, List.prefix_append ..⟩

theorem Transition.extends_final (h : Transition t mode c (.stopped r)) : c.Extends r.final := by
  cases h <;> exact ⟨List.suffix_cons .., List.suffix_rfl, List.prefix_rfl⟩

/-- A run adds to what has been done. -/
theorem extends_run (t : Table) (mode : Recovery) (c : Configuration) :
    c.Extends (c.run t mode).final :=
  run_induction (P := c.Extends) (Q := fun r => c.Extends r.final)
    (fun _ _ hc h => hc.trans h.extends) (fun _ _ hc h => hc.trans h.extends_final) (.refl c)

/-! ## One move in both modes -/

/-- The next move ends the run in abort mode, and in panic mode it leads on from where the error has
been recorded. -/
def Parts (t : Table) (c : Configuration) : Prop :=
  ∃ (b : Configuration) (top : Symbol) (e : SyntaxError) (d : Configuration),
    e.IsRecoverable ∧ b.errors = c.errors ∧ c.step t .abort = .stopped (b.failAt top e) ∧
    c.step t .panicMode = .moved d ∧ (b.note e).Extends d

/-- The modes part at a terminal that does not match. -/
theorem parts_of_mismatch {top : Symbol} (herrors : b.errors = c.errors)
    (h : ∀ mode, c.step t mode = b.mismatch mode top) : c.Parts t :=
  ⟨b, top, .mismatch top (lookahead b.input), b.note _, trivial, herrors, h .abort, h .panicMode,
    .refl _⟩

/-- The modes part at a nonterminal for which there is no alternative. -/
theorem parts_of_noRule {name : String} (herrors : b.errors = c.errors)
    (hcell : t.cell? name (lookahead b.input) = none)
    (h : ∀ mode, c.step t mode = b.expand t mode name) : c.Parts t := by
  refine ⟨b, .nonterminal name, .noRule name (lookahead b.input), _, trivial, herrors, ?_, ?_,
    extends_skipTo ((t.follow.get? name).getD []) _⟩
  · rw [h, Configuration.expand, hcell]
  · rw [h, Configuration.expand, hcell]

/-- The next move is the same in both modes, or the modes part there. -/
theorem step_modes (t : Table) (c : Configuration) :
    c.step t .panicMode = c.step t .abort ∨ c.Parts t := by
  cases hrep : c.repetition? with
  | some e => exact .inl (by simp only [step, hrep])
  | none =>
    have hstep : ∀ mode, c.step t mode = c.move t mode := fun mode => step_eq_move hrep
    cases hstack : c.stack with
    | nil => exact .inl (by simp only [hstep, move, hstack])
    | cons top rest =>
      by_cases hne : top.isTerminal ∧ top ≠ lookahead c.input
      · exact .inr (parts_of_mismatch (b := { c with stack := rest }) rfl fun mode => by
          rw [hstep, move_of_isTerminal hne.1 hne.2 hstack])
      cases top with
      | epsilon => exact .inl (by simp only [hstep, move, hstack])
      | nonterminal name =>
        have hexpand := fun mode => (hstep mode).trans (move_of_nonterminal hstack)
        cases hcell : t.cell? name (lookahead c.input) with
        | some p => exact .inl (by simp only [hexpand, Configuration.expand, hcell])
        | none =>
          exact .inr (parts_of_noRule
            (b := { c with stack := rest, pending := c.unfinished rest.length }) rfl hcell hexpand)
      | terminal a =>
        cases hinput : c.input with
        | nil => simp [hinput, Symbol.isTerminal, lookahead] at hne
        | cons token more =>
          obtain rfl : a = token := by simpa [hinput, Symbol.isTerminal, lookahead] using hne
          exact .inl (by simp [hstep, move, hstack, consume, hinput])
      | endMarker =>
        cases hinput : c.input with
        | nil => exact .inl (by simp [hstep, move, hstack, hinput])
        | cons token more => simp [hinput, Symbol.isTerminal, lookahead] at hne

/-- Abort mode records no error before it stops. -/
theorem Transition.errors_eq_of_abort (h : Transition t .abort c (.moved d)) :
    d.errors = c.errors := by
  cases h with
  | skip hmode => cases hmode
  | drop hmode => cases hmode
  | _ => rfl

/-- Panic mode does not stop at an error from which it recovers. -/
theorem Transition.not_isRecoverable (h : Transition t .panicMode c (.stopped r))
    {e : SyntaxError} (he : r.failure = some e) : ¬ e.IsRecoverable := by
  cases h with
  | noRule hmode => cases hmode
  | mismatch hmode => cases hmode
  | accept => cases he
  | endMarker => cases he
  | _ =>
    obtain rfl := Option.some.inj he
    exact id

end Configuration

/-! ## Runs in both modes -/

/-- The run `p` goes on where the run `a` has stopped at its only error. -/
def Run.Resumes (p a : Run) : Prop :=
  ∃ e es, e.IsRecoverable ∧ a.outcome = .rejected e ∧ p.outcome = .recovered (e :: es) ∧
    a.steps <+: p.steps ∧ a.tree <+: p.tree

namespace Configuration

variable {t : Table} {mode : Recovery} {c d : Configuration} {r : Run}

theorem run_of_stopped (h : c.step t mode = .stopped r) : c.run t mode = r := by
  rw [run]
  split
  next h' => exact Progress.stopped.inj (h'.symm.trans h)
  next h' => cases h'.symm.trans h

theorem run_of_moved (h : c.step t mode = .moved d) : c.run t mode = d.run t mode := by
  rw [run]
  split
  next h' => cases h'.symm.trans h
  next h' => rw [Progress.moved.inj (h'.symm.trans h)]

/-- Where the modes part, panic mode goes on from all that abort mode has done. -/
theorem Parts.resumes (h : c.Parts t) (hc : c.errors = []) :
    (c.run t .panicMode).Resumes (c.run t .abort) := by
  obtain ⟨b, top, e, d, he, hb, habort, hpanic, hextends⟩ := h
  rw [run_of_stopped habort, run_of_moved hpanic]
  obtain ⟨htrace, htree, herrors⟩ := hextends.trans (extends_run t .panicMode d)
  have hfirst : [e] <+: (d.run t .panicMode).final.errors := by
    simpa [note, hb, hc] using herrors
  obtain ⟨es, hes⟩ := hfirst
  refine ⟨e, es ++ (d.run t .panicMode).failure.toList, he, ?_, ?_, ?_, ?_⟩
  · simp [Run.outcome, failAt, record, hb, hc]
  · simp [Run.outcome, ← hes]
  · exact List.reverse_prefix.2 htrace
  · exact List.reverse_prefix.2 htree

/-- From a configuration without errors, the run is the same in both modes and meets no error from
which the parser recovers, or panic mode goes on where abort mode stops. -/
theorem run_modes (hc : c.errors = []) :
    (c.run t .panicMode = c.run t .abort ∧ ((c.run t .abort).outcome = .accepted ∨
        ∃ e, ¬ e.IsRecoverable ∧ (c.run t .abort).outcome = .rejected e)) ∨
      (c.run t .panicMode).Resumes (c.run t .abort) := by
  fun_induction run t .abort c with
  | case1 c r h =>
    rcases step_modes t c with hsame | hparts
    · have hpanic := hsame.trans h
      have hstop := hpanic ▸ step_spec t .panicMode c
      refine .inl ⟨run_of_stopped hpanic, ?_⟩
      have herrors := hstop.errors_final.trans hc
      cases hfailure : r.failure with
      | none => exact .inl (by simp [Run.outcome, herrors, hfailure])
      | some e =>
        exact .inr ⟨e, hstop.not_isRecoverable hfailure, by simp [Run.outcome, herrors, hfailure]⟩
    · exact .inr (run_of_stopped h ▸ hparts.resumes hc)
  | case2 c d h ih =>
    rcases step_modes t c with hsame | ⟨_, _, _, _, _, _, habort, -⟩
    · rw [run_of_moved (hsame.trans h)]
      have hmove := h ▸ step_spec t .abort c
      exact ih (hmove.errors_eq_of_abort.trans hc)
    · cases habort.symm.trans h

end Configuration

namespace Table

/-- With any table and on any input, abort mode accepts or stops at a single error. If it accepts, or
if the parser does not recover from the error, the run in panic mode is the same run. Otherwise panic
mode goes on, with this error as its first one and with all that abort mode has done as the
beginning of its steps and of its tree. So both modes accept the same inputs. -/
theorem panicMode_extends_abort (t : Table) (tokens : List String) :
    let abort := t.parse .abort tokens
    let panic := t.parse .panicMode tokens
    (abort.outcome = .accepted ∨ ∃ e, abort.outcome = .rejected e) ∧
    (abort.outcome = .accepted → panic = abort) ∧
    (∀ e, ¬ e.IsRecoverable → abort.outcome = .rejected e → panic = abort) ∧
    (∀ e, e.IsRecoverable → abort.outcome = .rejected e →
      ∃ es, panic.outcome = .recovered (e :: es) ∧ abort.steps <+: panic.steps ∧
        abort.tree <+: panic.tree) ∧
    (panic.outcome = .accepted ↔ abort.outcome = .accepted) := by
  intro abort panic
  have hmodes := Configuration.run_modes (t := t) (c := .initial t tokens) rfl
  obtain ⟨hsame, hends⟩ | ⟨e, es, he, hrejected, hrecovered, hsteps, htree⟩ := hmodes
  · have hsame : panic = abort := hsame
    have hnone : ∀ e, abort.outcome = .rejected e → ¬ e.IsRecoverable := by
      rintro e h
      obtain haccepted | ⟨f, hf, hrejected⟩ := hends
      · cases h.symm.trans haccepted
      · obtain rfl := Outcome.rejected.inj (h.symm.trans hrejected)
        exact hf
    exact ⟨hends.imp_right fun ⟨e, _, h⟩ => ⟨e, h⟩, fun _ => hsame, fun _ _ _ => hsame,
      fun e he h => absurd he (hnone e h), by rw [hsame]⟩
  · have hrejected : abort.outcome = .rejected e := hrejected
    have hrecovered : panic.outcome = .recovered (e :: es) := hrecovered
    have honly : ∀ f, abort.outcome = .rejected f → e = f := fun f h =>
      Outcome.rejected.inj (hrejected.symm.trans h)
    refine ⟨.inr ⟨e, hrejected⟩, fun h => ?_, fun f hf h => ?_, fun f _ h => ?_, ?_⟩
    · cases hrejected.symm.trans h
    · exact absurd (honly f h ▸ he) hf
    · exact honly f h ▸ ⟨es, hrecovered, hsteps, htree⟩
    · simp [hrejected, hrecovered]

/-- A bracket is closed with nothing in it, and the parser goes on behind it. -/
theorem panicMode_extends_abort_of_text :
    let g : Grammar :=
      { rules := [⟨"S", [[.terminal "(", .nonterminal "S", .terminal ")"], [.terminal "a"]]⟩]
        start := "S" }
    let t := build g.firstSets g.firstSets.followSets
    let abort := t.parse .abort ["(", ")", "a"]
    let panic := t.parse .panicMode ["(", ")", "a"]
    Grammar.ofText "S -> ( S ) | a" = .ok g ∧
      abort.outcome = .rejected (.noRule "S" (.terminal ")")) ∧
      ∃ es, panic.outcome = .recovered (.noRule "S" (.terminal ")") :: es) ∧
        abort.steps <+: panic.steps ∧ abort.tree <+: panic.tree := by
  intro g t abort panic
  have houtcome : abort.outcome = .rejected (.noRule "S" (.terminal ")")) := by
    simp only [abort, t, g]
    cbv
  obtain ⟨-, -, -, hresumes, -⟩ := panicMode_extends_abort t ["(", ")", "a"]
  exact ⟨rfl, houtcome, hresumes _ trivial houtcome⟩

end Table

end PredictiveParsing
