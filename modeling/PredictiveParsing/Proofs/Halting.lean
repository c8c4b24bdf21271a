import Mathlib.Data.List.Perm.Subperm
import Mathlib.Order.Nat
import PredictiveParsing.Proofs.Transitions

/-!
# Runs end, after a number of moves linear in the input

When a token is consumed, all nonterminals may be expanded again and the stack gets heavier. But
what lies below every pending expansion weighs the most that it can already. Above that, the stack
holds no more than one alternative for each pending expansion, and no nonterminal is pending twice,
so a token adds no more than a fixed amount. This amount for every token left, together with the
weight of the stack, is a potential that every checked move makes smaller.

## Main definitions

* `Configuration.Halts`, `Configuration.Discards`: a machine, or a loop that discards tokens, ends.
* `Nested`: the stack above a pending expansion holds no more than its alternative.
* `Configuration.potential`: a bound on the moves that are left.

## Main statements

* `Configuration.potential_lt`: a checked move makes the potential smaller.
* `Table.parse_halts`: a run ends after a number of moves linear in the number of tokens.
-/

namespace PredictiveParsing

namespace Configuration

/-- A machine that makes one move after the other stops, with the last of `n` moves. -/
inductive Halts (next : Configuration → Progress) : Configuration → Nat → Run → Prop
  | stop {c : Configuration} {r : Run} (h : next c = .stopped r) : Halts next c 1 r
  | move {c d : Configuration} {n : Nat} {r : Run} (h : next c = .moved d) (hd : Halts next d n r) :
      Halts next c (n + 1) r

/-! ## The loop that discards tokens -/

/-- One round of the loop that discards tokens. The loop ends where the input does and at a token
in `follow`. -/
def skipOne? (follow : List Symbol) (c : Configuration) : Option Configuration :=
  match c.input with
  | [] => none
  | token :: _ => if follow.contains (.terminal token) then none else some (c.skip token)

/-- The loop that discards tokens ends after `n` rounds. -/
inductive Discards (follow : List Symbol) : Configuration → Nat → Configuration → Prop
  | stop {c : Configuration} (h : c.skipOne? follow = none) : Discards follow c 0 c
  | skip {c d e : Configuration} {n : Nat} (h : c.skipOne? follow = some d)
      (hd : Discards follow d n e) : Discards follow c (n + 1) e

variable {t : Table} {mode : Recovery} {follow : List Symbol} {c d : Configuration} {n : Nat}

theorem skipOne?_eq_none :
    c.skipOne? follow = none ↔ lookahead c.input = .endMarker ∨ lookahead c.input ∈ follow := by
  unfold skipOne?
  split <;> simp_all [lookahead]

theorem skipOne?_eq_some (h : c.skipOne? follow = some d) :
    ∃ token more, c.input = token :: more ∧ .terminal token ∉ follow ∧ d = c.skip token := by
  unfold skipOne? at h
  split at h
  · cases h
  next token more hinput =>
    split at h
    next => cases h
    next hnot => exact ⟨token, more, hinput, by simpa using hnot, (Option.some.inj h).symm⟩

theorem skipTo_of_skipOne?_eq_none (h : c.skipOne? follow = none) : c.skipTo follow = c := by
  unfold skipTo
  cases hinput : c.input with
  | nil => rfl
  | cons token more =>
    have hmem : .terminal token ∈ follow := by simpa [hinput, lookahead] using skipOne?_eq_none.1 h
    simp [hmem]

theorem skipTo_of_skipOne?_eq_some (h : c.skipOne? follow = some d) :
    c.skipTo follow = d.skipTo follow := by
  obtain ⟨token, more, hinput, hnot, rfl⟩ := skipOne?_eq_some h
  simp [skipTo, hinput, hnot, skip, record]

/-- The loop that discards tokens ends, after at most as many rounds as there are tokens. -/
theorem exists_discards (follow : List Symbol) (c : Configuration) :
    ∃ n ≤ c.input.length, Discards follow c n (c.skipTo follow) := by
  induction hlength : c.input.length generalizing c with
  | zero =>
    have hnone : c.skipOne? follow = none :=
      skipOne?_eq_none.2 (.inl (by simp [List.length_eq_zero_iff.1 hlength, lookahead]))
    rw [skipTo_of_skipOne?_eq_none hnone]
    exact ⟨0, le_rfl, .stop hnone⟩
  | succ length ih =>
    cases hone : c.skipOne? follow with
    | none =>
      rw [skipTo_of_skipOne?_eq_none hone]
      exact ⟨0, Nat.zero_le _, .stop hone⟩
    | some d =>
      obtain ⟨token, more, hinput, -, rfl⟩ := skipOne?_eq_some hone
      obtain ⟨n, hn, hdiscards⟩ := ih (c.skip token) (by simpa [skip, hinput] using hlength)
      rw [skipTo_of_skipOne?_eq_some hone]
      exact ⟨n + 1, Nat.succ_le_succ hn, .skip hone hdiscards⟩

theorem Discards.stack_eq (h : Discards follow c n d) : d.stack = c.stack := by
  induction h with
  | stop => rfl
  | skip hone _ ih =>
    obtain ⟨token, -, -, -, rfl⟩ := skipOne?_eq_some hone
    exact ih

theorem Discards.pending_eq_nil (h : Discards follow c n d) (hc : c.pending = []) :
    d.pending = [] := by
  induction h with
  | stop => exact hc
  | skip hone _ ih =>
    obtain ⟨token, -, -, -, rfl⟩ := skipOne?_eq_some hone
    exact ih rfl

@[simp] theorem stack_skipTo : (c.skipTo follow).stack = c.stack := by
  obtain ⟨n, -, h⟩ := exists_discards follow c
  exact h.stack_eq

/-- No token is discarded, or nothing is pending afterwards. -/
theorem skipTo_eq_self_or_pending_eq_nil (follow : List Symbol) (c : Configuration) :
    (c.skipOne? follow = none ∧ c.skipTo follow = c) ∨ (c.skipTo follow).pending = [] := by
  cases hone : c.skipOne? follow with
  | none => exact .inl ⟨rfl, skipTo_of_skipOne?_eq_none hone⟩
  | some d =>
    obtain ⟨token, -, -, -, rfl⟩ := skipOne?_eq_some hone
    obtain ⟨n, -, h⟩ := exists_discards follow (c.skip token)
    rw [skipTo_of_skipOne?_eq_some hone]
    exact .inr (h.pending_eq_nil rfl)

end Configuration

/-! ## The height of the stack -/

section Nested

variable {t : Table} {es : List Expansion} {height lower depth : Nat} {stack : List Symbol}

/-- Each pending expansion has its alternative, at most, between its own place and the next one, the
latest between its place and the top of a stack. The latest expansion comes first. -/
def Nested (t : Table) : List Expansion → Nat → Prop
  | [], _ => True
  | e :: es, height => height ≤ e.depth + t.breadth ∧ Nested t es (e.depth + 1)

theorem Nested.mono (h : Nested t es height) (hle : lower ≤ height) : Nested t es lower := by
  cases es with
  | nil => trivial
  | cons e es => exact ⟨hle.trans h.1, h.2⟩

/-- Finished expansions may be forgotten. -/
theorem Nested.filter (h : Nested t es height) (hle : height ≤ depth + 1) :
    Nested t (es.filter (·.depth ≤ depth)) height := by
  induction es generalizing height with
  | nil => trivial
  | cons e es ih =>
    by_cases he : e.depth ≤ depth
    · rw [List.filter_cons_of_pos (by simpa using he)]
      exact ⟨h.1, ih h.2 (by omega)⟩
    · rw [List.filter_cons_of_neg (by simpa using he)]
      exact ih (h.2.mono (by omega)) hle

/-- What a symbol weighs where nothing is pending. -/
def Table.fullAllowance (t : Table) : Nat := t.allowance t.cells.length

theorem stackWeight_nil (t : Table) (stack : List Symbol) :
    stackWeight t [] stack = stack.length * t.fullAllowance := by
  induction stack with
  | nil => simp [stackWeight]
  | cons s stack ih =>
    have hall : available t [] stack.length = t.cells.map (·.1.1) :=
      List.filter_eq_self.2 (by simp)
    rw [stackWeight, hall, ih, List.length_cons, Nat.succ_mul, List.length_map, Nat.add_comm,
      Table.fullAllowance]

theorem stackWeight_drop_le (t : Table) (es : List Expansion) (n : Nat) (stack : List Symbol) :
    stackWeight t es (stack.drop n) ≤ stackWeight t es stack := by
  induction stack generalizing n with
  | nil => simp
  | cons s stack ih =>
    cases n with
    | zero => exact le_rfl
    | succ n => exact (ih n).trans (stackWeight_cons_lt t es s stack).le

/-- A stack could weigh more, with nothing pending, by at most an alternative for each pending
expansion. -/
theorem Nested.length_mul_le (h : Nested t es stack.length) :
    stack.length * t.fullAllowance
      ≤ stackWeight t es stack + es.length * (t.breadth * t.fullAllowance) := by
  induction es generalizing stack with
  | nil => simp [stackWeight_nil]
  | cons e es ih =>
    -- Below its own place, the latest expansion does not matter.
    set below := stack.drop (stack.length - e.depth)
    have hlength : below.length = min stack.length e.depth := by
      simp only [below, List.length_drop]
      omega
    have hsame : stackWeight t (e :: es) below = stackWeight t es below :=
      stackWeight_congr fun depth hdepth => by
        rw [List.filter_cons_of_neg (by simp; omega)]
    have hbelow : below.length * t.fullAllowance
        ≤ stackWeight t es below + es.length * (t.breadth * t.fullAllowance) :=
      ih (h.2.mono (by omega))
    have hdrop : stackWeight t (e :: es) below ≤ stackWeight t (e :: es) stack :=
      stackWeight_drop_le ..
    have habove : stack.length ≤ below.length + t.breadth := by
      have := h.1
      omega
    calc stack.length * t.fullAllowance
        ≤ (below.length + t.breadth) * t.fullAllowance := Nat.mul_le_mul_right _ habove
      _ = below.length * t.fullAllowance + t.breadth * t.fullAllowance := Nat.add_mul ..
      _ ≤ stackWeight t (e :: es) stack
            + (e :: es).length * (t.breadth * t.fullAllowance) := by
          rw [List.length_cons, Nat.succ_mul]
          omega

end Nested

namespace Table

/-- What a token may add to the weight of the stack when it is consumed. -/
def tokenAllowance (t : Table) : Nat := t.cells.length * (t.breadth * t.fullAllowance)

/-- A bound on the number of moves on some tokens. -/
def moveBound (t : Table) (tokens : Nat) : Nat :=
  t.fullAllowance + tokens * t.tokenAllowance + 1

end Table

namespace Configuration

variable {t : Table} {mode : Recovery} {c d : Configuration} {stack : List Symbol}

/-- What holds of the pending expansions in each configuration of a run. -/
structure Layered (t : Table) (c : Configuration) : Prop where
  nested : Nested t c.pending c.stack.length
  nodup : (c.pending.map Expansion.name).Nodup
  names : ∀ e ∈ c.pending, e.name ∈ t.cells.map (·.1.1)

namespace Layered

theorem of_pending_eq_nil (h : c.pending = []) : c.Layered t := by
  constructor <;> simp [h, Nested]

theorem initial (t : Table) (tokens : List String) : (Configuration.initial t tokens).Layered t :=
  of_pending_eq_nil rfl

/-- Expansions may be forgotten. -/
theorem of_sublist (hc : c.Layered t) (hnested : Nested t d.pending d.stack.length)
    (hsub : d.pending.Sublist c.pending) : d.Layered t where
  nested := hnested
  nodup := (hsub.map Expansion.name).nodup hc.nodup
  names e he := hc.names e (hsub.subset he)

theorem nested_unfinished (hc : c.Layered t) {s : Symbol} {rest : List Symbol}
    (hstack : c.stack = s :: rest) : Nested t (c.unfinished rest.length) (rest.length + 1) :=
  (hstack ▸ hc.nested : Nested t c.pending (s :: rest).length).filter le_rfl

theorem push {name : String} {rest : List Symbol} {p : Alternative} (hc : c.Layered t)
    (hstack : c.stack = .nonterminal name :: rest)
    (hnew : ¬ (c.unfinished rest.length).any (·.name == name))
    (hcell : t.cell? name (lookahead c.input) = some p) :
    Layered t ({ c with stack := rest, pending := c.unfinished rest.length }.push name p) where
  nested := by
    have hbreadth := Table.length_lt_breadth hcell
    refine ⟨?_, hc.nested_unfinished hstack⟩
    simp only [Configuration.push, List.length_append]
    omega
  nodup := by
    have hsub : (c.unfinished rest.length).Sublist c.pending := List.filter_sublist
    refine List.nodup_cons.2 ⟨fun hmem => hnew ?_, (hsub.map _).nodup hc.nodup⟩
    obtain ⟨e, he, hname⟩ := List.mem_map.1 hmem
    exact List.any_eq_true.2 ⟨e, he, by simpa using hname⟩
  names e he := by
    rcases List.mem_cons.1 he with rfl | he
    · exact List.mem_map.2 ⟨_, Table.mem_of_cell? hcell, rfl⟩
    · exact hc.names e (List.mem_of_mem_filter he)

theorem transition (hc : c.Layered t) (h : Transition t mode c (.moved d)) : d.Layered t := by
  have hpop : ∀ {s : Symbol} {rest : List Symbol}, c.stack = s :: rest →
      Nested t c.pending rest.length := fun hstack => hc.nested.mono (by simp [hstack])
  cases h with
  | popEpsilon hstack => exact hc.of_sublist (hpop hstack) (.refl _)
  | expand hstack hnew hcell => exact hc.push hstack hnew hcell
  | skip _ hstack =>
    rcases skipTo_eq_self_or_pending_eq_nil _ _ with ⟨-, heq⟩ | hnil
    · rw [heq]
      exact hc.of_sublist ((hc.nested_unfinished hstack).mono (Nat.le_succ _))
        List.filter_sublist
    · exact of_pending_eq_nil hnil
  | consume => exact of_pending_eq_nil rfl
  | drop _ hstack => exact hc.of_sublist (hpop hstack) (.refl _)

/-- No nonterminal is pending twice. -/
theorem length_pending_le (hc : c.Layered t) : c.pending.length ≤ t.cells.length := by
  have hsub : c.pending.map Expansion.name ⊆ t.cells.map (·.1.1) := fun name hname => by
    obtain ⟨e, he, rfl⟩ := List.mem_map.1 hname
    exact hc.names e he
  simpa using (List.subperm_of_subset hc.nodup hsub).length_le

theorem length_mul_le (hc : c.Layered t) (hstack : stack.length ≤ c.stack.length) :
    stack.length * t.fullAllowance ≤ stackWeight t c.pending stack + t.tokenAllowance :=
  (hc.nested.mono hstack).length_mul_le.trans
    (Nat.add_le_add_left (Nat.mul_le_mul_right _ hc.length_pending_le) _)

end Layered

/-! ## The potential -/

/-- A bound on the moves that are left: the weight of the stack and what the tokens may add. -/
def potential (t : Table) (c : Configuration) : Nat :=
  stackWeight t c.pending c.stack + c.input.length * t.tokenAllowance

/-- Where tokens are consumed, the top of the stack is taken and nothing is pending. -/
theorem Transition.consumed (h : Transition t mode c (.moved d))
    (hinput : d.input.length < c.input.length) :
    d.pending = [] ∧ ∃ s, c.stack = s :: d.stack := by
  cases h with
  | popEpsilon => simp [record] at hinput
  | expand => simp [push, record] at hinput
  | @skip name rest _ hstack =>
    rcases skipTo_eq_self_or_pending_eq_nil ((t.follow.get? name).getD [])
      (note { c with stack := rest, pending := c.unfinished rest.length }
        (.noRule name (lookahead c.input))) with ⟨-, heq⟩ | hnil
    · rw [heq] at hinput
      exact absurd hinput (lt_irrefl _)
    · exact ⟨hnil, _, by simpa [note, record] using hstack⟩
  | consume hstack => exact ⟨rfl, _, hstack⟩
  | drop => simp [note, record] at hinput

/-- A checked move makes the potential smaller. -/
theorem potential_lt (hc : c.Layered t) (h : c.step t mode = .moved d) :
    d.potential t < c.potential t := by
  unfold potential
  rcases Prod.lex_def.1 (measure_step_lt h) with hinput | ⟨hinput, hweight⟩
  · obtain ⟨hpending, s, hstack⟩ := (h ▸ step_spec t mode c).consumed hinput
    have hfull : d.stack.length * t.fullAllowance
        ≤ stackWeight t c.pending d.stack + t.tokenAllowance :=
      hc.length_mul_le (by simp [hstack])
    have hpop := stackWeight_cons_lt t c.pending s d.stack
    have htokens : (d.input.length + 1) * t.tokenAllowance ≤ c.input.length * t.tokenAllowance :=
      Nat.mul_le_mul_right _ hinput
    rw [Nat.succ_mul] at htokens
    rw [hpending, stackWeight_nil, hstack]
    omega
  · have hinput : d.input.length = c.input.length := hinput
    have hweight : stackWeight t d.pending d.stack < stackWeight t c.pending c.stack := hweight
    rw [hinput]
    omega

/-- A run ends after at most as many moves as its potential allows. -/
theorem exists_halts_run (hc : c.Layered t) :
    ∃ n ≤ c.potential t + 1, Halts (step t mode) c n (c.run t mode) := by
  fun_induction run t mode c with
  | case1 c r h => exact ⟨1, Nat.le_add_left .., .stop h⟩
  | case2 c d h ih =>
    obtain ⟨n, hn, hhalts⟩ := ih (hc.transition (h ▸ step_spec t mode c))
    have hlt := potential_lt hc h
    exact ⟨n + 1, by omega, .move h hhalts⟩

end Configuration

namespace Table

/-- With any table, in either mode and on any input, the parser stops with a result. The number of
its moves is at most linear in the number of tokens, and each time that it discards tokens, this
ends after at most as many rounds as there are tokens. -/
theorem parse_halts (t : Table) (mode : Recovery) (tokens : List String) :
    (∃ n ≤ t.moveBound tokens.length, Configuration.Halts (Configuration.step t mode)
      (Configuration.initial t tokens) n (t.parse mode tokens)) ∧
    ∀ (follow : List Symbol) (c : Configuration), ∃ n ≤ c.input.length,
      Configuration.Discards follow c n (c.skipTo follow) := by
  refine ⟨?_, Configuration.exists_discards⟩
  have hpotential :
      (Configuration.initial t tokens).potential t + 1 = t.moveBound tokens.length := by
    simp [Configuration.potential, Configuration.initial, stackWeight_nil, moveBound]
  exact hpotential ▸ Configuration.exists_halts_run (.initial t tokens)

end Table

end PredictiveParsing
