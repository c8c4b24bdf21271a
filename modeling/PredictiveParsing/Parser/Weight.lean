import PredictiveParsing.Parser.Move

/-!
# Why a run ends

An expansion makes the stack longer without consuming input, so the length of the stack says nothing
about the end of a run. But what has been pushed by an expansion cannot expand the same nonterminal
again before a token is consumed. A symbol therefore weighs the more, the more nonterminals may
still be expanded at its height of the stack, and all symbols of an alternative together weigh less
than the nonterminal whose place they take.

## Main definitions

* `available`: the nonterminals that may be expanded at a height of the stack.
* `Table.allowance`: what a symbol weighs where a number of nonterminals may be expanded.
* `stackWeight`: the weight of a stack.
* `Configuration.measure`: the tokens left and the weight of the stack.

## Main statements

* `Configuration.measure_step_lt`: a checked move makes the measure smaller.
-/

namespace PredictiveParsing

/-- The nonterminals of the table that no expansion at or below `depth` has open. -/
def available (t : Table) (pending : List Expansion) (depth : Nat) : List String :=
  (t.cells.map (·.1.1)).filter fun name =>
    !(pending.filter (·.depth ≤ depth)).any (·.name == name)

/-- One more than the length of the longest alternative of the table. -/
def Table.breadth (t : Table) : Nat := (t.cells.map (·.2.length)).foldr max 0 + 1

/-- What a symbol weighs at a height where `n` nonterminals may be expanded. -/
def Table.allowance (t : Table) : Nat → Nat
  | 0 => 1
  | n + 1 => t.breadth * t.allowance n

/-- The weight of a stack with its top first. -/
def stackWeight (t : Table) (pending : List Expansion) : List Symbol → Nat
  | [] => 0
  | _ :: rest =>
    t.allowance (available t pending rest.length).length + stackWeight t pending rest

/-- What gets smaller in every move: first the number of tokens, then the weight of the stack. -/
def Configuration.measure (t : Table) (c : Configuration) : Nat × Nat :=
  (c.input.length, stackWeight t c.pending c.stack)

namespace Table

theorem mem_of_cell? {t : Table} {name : String} {s : Symbol} {p : Alternative}
    (h : t.cell? name s = some p) : ((name, s), p) ∈ t.cells := by
  obtain ⟨cells, rest, hcells, -⟩ := List.lookup_eq_some_iff.1 h
  simp [hcells]

theorem length_lt_breadth {t : Table} {name : String} {s : Symbol} {p : Alternative}
    (h : t.cell? name s = some p) : p.length < t.breadth := by
  have hmax : ∀ (ns : List Nat) (n : Nat), n ∈ ns → n ≤ ns.foldr max 0 := by
    intro ns n hn
    induction ns with
    | nil => simp at hn
    | cons m ns ih =>
      rcases List.mem_cons.1 hn with rfl | hn
      · exact Nat.le_max_left ..
      · exact Nat.le_trans (ih hn) (Nat.le_max_right ..)
  exact Nat.lt_succ_of_le (hmax _ _ (List.mem_map.2 ⟨_, mem_of_cell? h, rfl⟩))

theorem breadth_pos (t : Table) : 0 < t.breadth := Nat.succ_pos _

theorem allowance_pos (t : Table) (n : Nat) : 0 < t.allowance n := by
  induction n with
  | zero => exact Nat.one_pos
  | succ n ih => exact Nat.mul_pos t.breadth_pos ih

theorem allowance_le (t : Table) {m n : Nat} (h : m ≤ n) : t.allowance m ≤ t.allowance n := by
  induction h with
  | refl => exact Nat.le_refl _
  | step _ ih => exact Nat.le_trans ih (Nat.le_mul_of_pos_left _ t.breadth_pos)

end Table

/-- Expansions above a height do not matter for what lies below it. -/
theorem stackWeight_congr {t : Table} {pending pending' : List Expansion} {stack : List Symbol}
    (h : ∀ depth, depth < stack.length → pending.filter (·.depth ≤ depth)
      = pending'.filter (·.depth ≤ depth)) :
    stackWeight t pending stack = stackWeight t pending' stack := by
  induction stack with
  | nil => rfl
  | cons s rest ih =>
    simp only [stackWeight, available, h rest.length (by simp)]
    rw [ih fun depth hd => h depth (by simp; omega)]

theorem filter_unfinished {c : Configuration} {depth height : Nat} (h : depth < height) :
    (c.unfinished height).filter (·.depth ≤ depth) = c.pending.filter (·.depth ≤ depth) := by
  simp only [Configuration.unfinished, List.filter_filter]
  congr 1
  funext e
  simp
  omega

/-- Forgetting the finished expansions leaves the weight of what lies below as it is. -/
theorem stackWeight_unfinished (t : Table) (c : Configuration) (rest : List Symbol) :
    stackWeight t (c.unfinished rest.length) rest = stackWeight t c.pending rest :=
  stackWeight_congr fun _ h => filter_unfinished h

theorem stackWeight_cons_lt (t : Table) (pending : List Expansion) (s : Symbol)
    (rest : List Symbol) : stackWeight t pending rest < stackWeight t pending (s :: rest) := by
  have := t.allowance_pos (available t pending rest.length).length
  simp only [stackWeight]
  omega

/-- A nonterminal with an open expansion at the bottom of an alternative is not available to it. -/
theorem length_available_lt {t : Table} {name : String} {s : Symbol} {p : Alternative}
    {pending : List Expansion} {depth height : Nat} (hcell : t.cell? name s = some p)
    (hle : ∀ e ∈ pending, e.depth ≤ depth) (hnew : ¬ pending.any (·.name == name))
    (h : depth ≤ height) :
    (available t (⟨name, depth⟩ :: pending) height).length
      < (available t pending depth).length := by
  have hall : pending.filter (·.depth ≤ depth) = pending :=
    List.filter_eq_self.2 fun e he => by simpa using hle e he
  have hall' : (⟨name, depth⟩ :: pending : List Expansion).filter (·.depth ≤ height)
      = ⟨name, depth⟩ :: pending :=
    List.filter_eq_self.2 fun e he => by
      rcases List.mem_cons.1 he with rfl | he
      · simpa using h
      · simpa using Nat.le_trans (hle e he) h
  have hsplit : available t (⟨name, depth⟩ :: pending) height
      = (available t pending depth).filter (name != ·) := by
    simp only [available, hall, hall', List.filter_filter, List.any_cons, Bool.not_or]
    rfl
  rw [hsplit]
  have hname : name ∈ t.cells.map (·.1.1) :=
    List.mem_map.2 ⟨_, Table.mem_of_cell? hcell, rfl⟩
  exact List.length_filter_lt_length_iff_exists.2
    ⟨name, by simp only [available, hall, List.mem_filter]; simp_all, by simp⟩

/-- The symbols of an alternative on a stack weigh at most their number times what one of them may
weigh. -/
theorem stackWeight_append_le {t : Table} {pending : List Expansion} {n depth : Nat}
    (h : ∀ height, depth ≤ height → (available t pending height).length ≤ n)
    {rest : List Symbol} (hrest : rest.length = depth) (p : Alternative) :
    stackWeight t pending (p ++ rest) ≤ p.length * t.allowance n + stackWeight t pending rest := by
  induction p with
  | nil => simp
  | cons s p ih =>
    have := t.allowance_le (h (p ++ rest).length (by simp; omega))
    simp only [List.cons_append, stackWeight, List.length_cons, Nat.add_mul, Nat.one_mul]
    omega

/-- An alternative weighs less than the nonterminal whose place it takes. -/
theorem stackWeight_expansion_lt {t : Table} {name : String} {s : Symbol} {p : Alternative}
    {c : Configuration} {rest : List Symbol} (hcell : t.cell? name s = some p)
    (hnew : ¬ (c.unfinished rest.length).any (·.name == name)) (top : Symbol) :
    stackWeight t (⟨name, rest.length⟩ :: c.unfinished rest.length) (p ++ rest)
      < stackWeight t c.pending (top :: rest) := by
  have hle : ∀ e ∈ c.unfinished rest.length, e.depth ≤ rest.length := fun e he => by
    simpa [Configuration.unfinished] using (List.mem_filter.1 he).2
  have havail := fun height (h : rest.length ≤ height) =>
    length_available_lt hcell hle hnew h
  have hsame : available t (c.unfinished rest.length) rest.length
      = available t c.pending rest.length := by
    simp only [available, Configuration.unfinished, List.filter_filter, Bool.and_self]
  rw [hsame] at havail
  have hpos : 0 < (available t c.pending rest.length).length := by
    have := havail rest.length (Nat.le_refl _)
    omega
  have hbelow : stackWeight t (⟨name, rest.length⟩ :: c.unfinished rest.length) rest
      = stackWeight t c.pending rest := by
    rw [← stackWeight_unfinished t c rest]
    refine stackWeight_congr fun depth hd => ?_
    rw [List.filter_cons_of_neg (by simpa using hd)]
  obtain ⟨n, hn⟩ := Nat.exists_eq_succ_of_ne_zero (Nat.pos_iff_ne_zero.1 hpos)
  have hpush : stackWeight t (⟨name, rest.length⟩ :: c.unfinished rest.length) (p ++ rest)
      ≤ p.length * t.allowance n + stackWeight t c.pending rest := by
    rw [← hbelow]
    exact stackWeight_append_le (fun height h => by have := havail height h; omega) rfl p
  have hmul : p.length * t.allowance n < t.breadth * t.allowance n :=
    Nat.mul_lt_mul_of_pos_right (Table.length_lt_breadth hcell) (t.allowance_pos n)
  simp only [stackWeight, hn, Table.allowance]
  omega

namespace Configuration

/-- The order of measures: first by tokens, then by weight. -/
abbrev MeasureLt : Nat × Nat → Nat × Nat → Prop := Prod.Lex (· < ·) (· < ·)

theorem measure_lt_of_weight {t : Table} {c d : Configuration}
    (hinput : d.input = c.input) (h : stackWeight t d.pending d.stack
      < stackWeight t c.pending c.stack) : MeasureLt (d.measure t) (c.measure t) := by
  simp only [measure, hinput]
  exact .right _ h

/-- Skipping consumes tokens or changes nothing but the trace. -/
theorem skipTo_cases (follow : List Symbol) (c : Configuration) :
    c.skipTo follow = c ∨
      ((c.skipTo follow).input.length < c.input.length) := by
  have hskip : ∀ (tokens : List String) (d : Configuration),
      (tokens.foldl skip d).input = d.input.drop tokens.length := by
    intro tokens
    induction tokens with
    | nil => simp
    | cons a tokens ih =>
      intro d
      rw [List.foldl_cons, ih]
      simp [skip, record, List.drop_tail]
  unfold skipTo
  cases h : c.input.takeWhile fun token => !follow.contains (.terminal token) with
  | nil => exact .inl rfl
  | cons a tokens =>
    right
    rw [hskip, List.length_drop]
    have : c.input ≠ [] := by
      intro hnil
      simp [hnil] at h
    have := List.length_pos_iff.2 this
    simp only [List.length_cons]
    omega

theorem measure_mismatch_lt {t : Table} {mode : Recovery} {top s : Symbol} {c d b : Configuration}
    (h : b.mismatch mode top = .moved d) (hstack : c.stack = s :: b.stack)
    (hinput : b.input = c.input) (hpending : b.pending = c.pending) :
    MeasureLt (d.measure t) (c.measure t) := by
  cases mode with
  | abort => simp [mismatch] at h
  | panicMode =>
    obtain rfl := Progress.moved.inj h
    refine measure_lt_of_weight hinput ?_
    simpa [note, record, hpending, hstack] using stackWeight_cons_lt t c.pending s b.stack

theorem measure_expand_lt {t : Table} {mode : Recovery} {name : String} {rest : List Symbol}
    {c d : Configuration} (hstack : c.stack = .nonterminal name :: rest)
    (hnew : ¬ (c.unfinished rest.length).any (·.name == name))
    (h : expand t mode name { c with stack := rest, pending := c.unfinished rest.length }
      = .moved d) : MeasureLt (d.measure t) (c.measure t) := by
  unfold expand at h
  split at h
  next p hcell =>
    obtain rfl := Progress.moved.inj h
    refine measure_lt_of_weight rfl ?_
    simpa [push, record, hstack] using stackWeight_expansion_lt hcell hnew (.nonterminal name)
  next =>
    cases mode with
    | abort => simp at h
    | panicMode =>
      obtain rfl := Progress.moved.inj h
      rcases skipTo_cases ((t.follow.get? name).getD [])
        (note { c with stack := rest, pending := c.unfinished rest.length }
          (.noRule name (lookahead c.input))) with hskip | hskip
      · rw [hskip]
        refine measure_lt_of_weight rfl ?_
        simpa [note, record, hstack, stackWeight_unfinished] using
          stackWeight_cons_lt t c.pending (.nonterminal name) rest
      · exact .left _ _ hskip

/-- A checked move makes the measure smaller. -/
theorem measure_step_lt {t : Table} {mode : Recovery} {c d : Configuration}
    (h : c.step t mode = .moved d) : MeasureLt (d.measure t) (c.measure t) := by
  unfold step at h
  split at h
  · simp at h
  next hrep =>
    unfold move at h
    split at h
    · simp at h
    next rest hstack =>
      obtain rfl := Progress.moved.inj h
      refine measure_lt_of_weight rfl ?_
      simpa [record, hstack] using stackWeight_cons_lt t c.pending .epsilon rest
    next name rest hstack =>
      refine measure_expand_lt hstack ?_ h
      simpa [repetition?, hstack] using hrep
    next a rest hstack =>
      unfold consume at h
      split at h
      · exact measure_mismatch_lt h hstack rfl rfl
      next token more hinput =>
        split at h
        · obtain rfl := Progress.moved.inj h
          exact .left _ _ (by simp_all [record])
        · exact measure_mismatch_lt h hstack rfl rfl
    next rest hstack =>
      split at h
      · simp at h
      · exact measure_mismatch_lt h hstack rfl rfl

end Configuration

end PredictiveParsing
