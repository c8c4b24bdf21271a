import Mathlib.Data.List.Chain
import PredictiveParsing.Proofs.Cells

/-!
# Which alternatives meet in a cell

An alternative selects the terminals with which it can begin and, where it derives the empty word,
those that can follow its nonterminal. The history of a cell is the list of the alternatives that
select its terminal, in the order in which they are declared.

## Main definitions

* `Table.selecting`: the alternatives of a nonterminal that select a terminal.
* `Table.Exact`: a table that says exactly which alternatives select which terminals.

## Main statements

* `isChain_changes`: each change in a list starts where the one before it ends.
* `Table.history_entries`: the history of a cell.
* `Table.exact_build`: a table that is built from the sets of an attainable grammar is exact.
-/

namespace PredictiveParsing

/-! ## Changes end at the last element -/

section Changes

variable {α : Type} [DecidableEq α] {xs : List α} {e : α × α}

/-- The first change starts at the first element. -/
theorem head?_changes (h : (changes xs).head? = some e) : xs.head? = some e.1 := by
  fun_induction changes xs with
  | case1 x xs ih => exact ih h
  | case2 x y xs => exact Option.some.inj h ▸ rfl
  | case3 => cases h

/-- Each change starts where the one before it ends. -/
theorem isChain_changes (xs : List α) : (changes xs).IsChain fun e f => e.2 = f.1 := by
  fun_induction changes xs with
  | case1 x xs ih => exact ih
  | case2 x y xs h ih =>
    exact List.isChain_cons.2 ⟨fun f hf => Option.some.inj (head?_changes hf), ih⟩
  | case3 => exact .nil

/-- The last change ends at the last element. -/
theorem getLast?_changes (h : (changes xs).getLast? = some e) : xs.getLast? = some e.2 := by
  fun_induction changes xs with
  | case1 x xs ih => exact ih h
  | case2 x y xs hne ih =>
    rw [List.getLast?_cons_cons]
    cases hrest : changes (y :: xs) with
    | nil =>
      -- What comes after the only change is the same all along.
      obtain rfl : (x, y) = e := by simpa [hrest] using h
      rw [List.getLast?_eq_some_getLast (List.cons_ne_nil y xs)]
      exact congrArg some
        (changes_eq_nil_iff.1 hrest _ (List.getLast_mem _) y List.mem_cons_self)
    | cons f fs =>
      rw [hrest, List.getLast?_cons_cons, ← hrest] at h
      exact ih h
  | case3 => cases h

end Changes

namespace Grammar

variable {g : Grammar}

/-- No terminal is listed twice. -/
theorem nodup_terminals (g : Grammar) : g.terminals.Nodup := by
  rw [terminals_eq]
  refine List.nodup_append.2 ⟨nodup_eraseDups _, List.nodup_singleton _, ?_⟩
  rintro s hs e he rfl
  obtain rfl := List.mem_singleton.1 he
  simp [ownTerminal] at hs

/-- What is collected from the rules of one name comes from the alternatives of the nonterminal. -/
theorem flatMap_rules {β : Type} (hg : g.names.Nodup) {f : List Alternative → List β}
    (hnil : f [] = []) (name : String) :
    (g.rules.flatMap fun r => if r.name = name then f r.alternatives else [])
      = f (g.alternatives name) := by
  have hother : ∀ rules : List Rule, name ∉ rules.map Rule.name →
      (rules.flatMap fun r => if r.name = name then f r.alternatives else []) = [] := by
    intro rules hname
    refine List.flatMap_eq_nil_iff.2 fun r hr => if_neg ?_
    rintro rfl
    exact hname (List.mem_map_of_mem hr)
  by_cases hname : name ∈ g.names
  · obtain ⟨r, hr, rfl⟩ := mem_names.1 hname
    rw [alternatives_of_mem hg hr]
    obtain ⟨before, after, hrules⟩ := List.append_of_mem hr
    have honce : r.name ∉ before.map Rule.name ∧ r.name ∉ after.map Rule.name := by
      rw [names, hrules, List.map_append, List.map_cons, List.nodup_middle, List.nodup_cons] at hg
      simpa using hg.1
    rw [hrules, List.flatMap_append, List.flatMap_cons, hother before honce.1, hother after honce.2]
    simp
  · rw [alternatives_eq_nil hname, hnil]
    exact hother g.rules hname

end Grammar

namespace Table

section Selection

variable (first : FirstSets) (follow : FollowSets) (name : String) (x : Symbol)

/-- An alternative of a nonterminal selects a terminal of the grammar with which it can begin, or
which, if it derives the empty word, can follow the nonterminal. -/
def Selects (p : Alternative) : Prop :=
  x ∈ first.grammar.terminals ∧ (x ∈ first.ofSequence p ∨
    (.epsilon ∈ first.ofSequence p ∧ x ∈ (follow.get? name).getD []))

instance : DecidablePred (Selects first follow name x) :=
  fun _ => inferInstanceAs (Decidable (_ ∧ _))

/-- The alternatives of a nonterminal that select a terminal, in the order of declaration. -/
def selecting : List Alternative :=
  (first.grammar.alternatives name).filter fun p => Selects first follow name x p

end Selection

variable {first : FirstSets} {follow : FollowSets} {name : String} {x : Symbol} {p : Alternative}

theorem mem_selecting :
    p ∈ selecting first follow name x ↔
      p ∈ first.grammar.alternatives name ∧ Selects first follow name x p := by
  simp [selecting]

/-- No lookahead of an alternative is listed twice, as what can begin it is not listed again. -/
theorem nodup_lookaheadsOf : (lookaheadsOf first follow name p).Nodup := by
  have hterminals := first.grammar.nodup_terminals
  refine List.nodup_append.2 ⟨hterminals.filter _, hterminals.filter _, ?_⟩
  rintro y hy _ hz rfl
  have hstarts : y ∈ first.ofSequence p := by simpa using (List.mem_filter.1 hy).2
  simp [hstarts] at hz

/-- An alternative goes once into the cell of each terminal that it selects. -/
theorem history_lookaheads (other : String) :
    history ((lookaheadsOf first follow other p).map fun y => ((other, y), p)) name x
      = if other = name ∧ Selects first follow name x p then [p] else [] := by
  have hfilter : (lookaheadsOf first follow other p).filter (fun y => (other, y) == (name, x))
      = if other = name ∧ Selects first follow name x p then [x] else [] := by
    by_cases hname : other = name
    · subst hname
      have heq : ∀ y, ((other, y) == (other, x)) = (y == x) := by simp
      simp only [heq, List.filter_beq, true_and]
      split
      next h => rw [List.count_eq_one_of_mem nodup_lookaheadsOf (mem_lookaheadsOf.2 h)]; rfl
      next h => rw [List.count_eq_zero_of_not_mem fun hx => h (mem_lookaheadsOf.1 hx)]; rfl
    · simp [hname]
  simp only [history, List.filter_map, List.map_map, Function.comp_def, hfilter]
  split <;> rfl

theorem history_flatMap {β : Type} (f : β → List ((String × Symbol) × Alternative)) (bs : List β) :
    history (bs.flatMap f) name x = bs.flatMap fun b => history (f b) name x := by
  simp only [history, List.filter_flatMap, List.map_flatMap]

/-- The history of a cell is the list of the alternatives that select its terminal. -/
theorem history_entries (hg : first.grammar.names.Nodup) :
    history (entries first follow) name x = selecting first follow name x := by
  have hrow : ∀ r : Rule,
      history (r.alternatives.flatMap fun p =>
        (lookaheadsOf first follow r.name p).map fun y => ((r.name, y), p)) name x
      = if r.name = name then r.alternatives.filter (Selects first follow name x ·) else [] := by
    intro r
    rw [history_flatMap]
    simp only [history_lookaheads]
    by_cases hname : r.name = name
    · simp only [hname, true_and, if_true]
      induction r.alternatives with
      | nil => rfl
      | cons p ps ih => by_cases hp : Selects first follow name x p <;> simp [hp, ih]
    · simp [hname]
  rw [entries, history_flatMap]
  simp only [hrow]
  exact Grammar.flatMap_rules hg rfl name

/-! ## Exact tables -/

/-- A table says exactly which alternatives select which terminals. -/
structure Exact (t : Table) (first : FirstSets) (follow : FollowSets) : Prop where
  /-- A cell holds the last alternative that selects its terminal. -/
  cell? : ∀ name x, t.cell? name x = (selecting first follow name x).getLast?
  /-- A cell that no alternative selects is empty. -/
  cell?_eq_none : ∀ name x,
    t.cell? name x = none ↔ ∀ p ∈ first.grammar.alternatives name, ¬ Selects first follow name x p
  /-- There are cells for the nonterminals and the terminals of the grammar only. -/
  cell?_of_not_mem : ∀ name x,
    name ∉ first.grammar.names ∨ x ∉ first.grammar.terminals → t.cell? name x = none
  /-- The conflicts of a cell are the places where an alternative that selects its terminal differs
  from the one before. -/
  conflictsAt : ∀ name x,
    t.conflictsAt name x = (changes (selecting first follow name x)).map (conflictOf name x)
  /-- The first conflict of a cell replaces the first alternative that selects its terminal. -/
  replaced : ∀ name x c, (t.conflictsAt name x).head? = some c →
    (selecting first follow name x).head? = some c.replaced
  /-- Each other conflict of a cell replaces the winner of the one before it. -/
  isChain : ∀ name x, (t.conflictsAt name x).IsChain fun c d => c.winner = d.replaced
  /-- The winner of the last conflict stands in the cell. -/
  winner : ∀ name x c, (t.conflictsAt name x).getLast? = some c → t.cell? name x = some c.winner
  /-- There are no conflicts if and only if alternatives of one nonterminal that select a common
  terminal are equal. -/
  isLL1 : t.isLL1 = true ↔ ∀ name x, ∀ p ∈ first.grammar.alternatives name,
    ∀ q ∈ first.grammar.alternatives name,
      Selects first follow name x p → Selects first follow name x q → p = q

/-- A table that is built from the `FIRST` sets of an attainable grammar and any `FOLLOW` sets is
exact. -/
theorem exact_build {g : Grammar} (hg : g.Attainable) (follow : FollowSets) :
    (build g.firstSets follow).Exact g.firstSets follow := by
  have hrecords := records_build g.firstSets follow
  have hhistory : ∀ name x,
      history (entries g.firstSets follow) name x = selecting g.firstSets follow name x :=
    fun name x => history_entries hg.wellFormed.nodup
  have hcell : ∀ name x, (build g.firstSets follow).cell? name x
      = (selecting g.firstSets follow name x).getLast? :=
    fun name x => hhistory name x ▸ hrecords.holds name x
  have hconflicts : ∀ name x, (build g.firstSets follow).conflictsAt name x
      = (changes (selecting g.firstSets follow name x)).map (conflictOf name x) :=
    fun name x => hhistory name x ▸ hrecords.changed name x
  have hnone : ∀ name x, (build g.firstSets follow).cell? name x = none ↔
      ∀ p ∈ g.alternatives name, ¬ Selects g.firstSets follow name x p := by
    intro name x
    rw [hcell, List.getLast?_eq_none_iff, List.eq_nil_iff_forall_not_mem]
    exact forall_congr' fun p => by rw [mem_selecting, not_and]; rfl
  refine ⟨hcell, hnone, fun name x hx => ?_, hconflicts, fun name x c hc => ?_, fun name x => ?_,
    fun name x c hc => ?_, ?_⟩
  · refine (hnone name x).2 fun p hp hsel => ?_
    exact hx.elim (absurd (Grammar.mem_names_of_mem_alternatives hp)) (absurd hsel.1)
  · rw [hconflicts, List.head?_map, Option.map_eq_some_iff] at hc
    obtain ⟨e, he, rfl⟩ := hc
    exact head?_changes he
  · rw [hconflicts, List.isChain_map]
    exact isChain_changes _
  · rw [hconflicts, List.getLast?_map, Option.map_eq_some_iff] at hc
    obtain ⟨e, he, rfl⟩ := hc
    exact (hcell name x).trans (getLast?_changes he)
  · simp only [hrecords.isLL1_iff, hhistory, mem_selecting]
    exact ⟨fun h name x p hp q hq hpx hqx => h name x p ⟨hp, hpx⟩ q ⟨hq, hqx⟩,
      fun h name x p hp q hq => h name x p hp.1 q hq.1 hp.2 hq.2⟩

/-- With the `FOLLOW` sets of another grammar, the empty word takes a cell that is then filled again
with the same alternative as before. -/
theorem exact_build_of_text :
    let g : Grammar :=
      { rules := [⟨"S", [[.terminal "a", .terminal "b"], [.epsilon],
          [.terminal "a", .terminal "b"]]⟩]
        start := "S" }
    let h : Grammar :=
      { rules := [⟨"S", [[.nonterminal "S", .terminal "a"], [.terminal "b"]]⟩], start := "S" }
    let t := build g.firstSets h.firstSets.followSets
    Grammar.ofText "S -> a b | ε | a b" = .ok g ∧ Grammar.ofText "S -> S a | b" = .ok h ∧
      t.Exact g.firstSets h.firstSets.followSets ∧
      t.conflictsAt "S" (.terminal "a") =
        [⟨"S", .terminal "a", [.terminal "a", .terminal "b"], [.epsilon]⟩,
          ⟨"S", .terminal "a", [.epsilon], [.terminal "a", .terminal "b"]⟩] ∧
      t.cell? "S" (.terminal "a") = some [.terminal "a", .terminal "b"] ∧
      t.cell? "S" (.terminal "b") = none ∧ g.table.isLL1 = true := by
  intro g h t
  have hg : Grammar.ofText "S -> a b | ε | a b" = .ok g := by
    set_option maxRecDepth 2000 in rfl
  have hcells : t.conflictsAt "S" (.terminal "a") =
        [⟨"S", .terminal "a", [.terminal "a", .terminal "b"], [.epsilon]⟩,
          ⟨"S", .terminal "a", [.epsilon], [.terminal "a", .terminal "b"]⟩] ∧
      t.cell? "S" (.terminal "a") = some [.terminal "a", .terminal "b"] ∧
      t.cell? "S" (.terminal "b") = none ∧ g.table.isLL1 = true := by
    simp only [t, g, h]
    cbv
    decide
  exact ⟨hg, rfl, exact_build (.ofText hg) h.firstSets.followSets, hcells⟩

end Table

end PredictiveParsing
