import PredictiveParsing.Proofs.Follow

/-!
# Cells of a table

The history of a cell lists the alternatives that have been put into it. The cell holds the last of
them, and the conflicts recorded for it are the places where one of them differs from the one
before. So where no conflict has been recorded, every alternative stands in each of the cells at
whose terminal it is chosen.

## Main definitions

* `Table.entries`: the entries of a table in the order in which they are put in.
* `Table.history`: the alternatives that are put into one cell.
* `Table.Records`: a table that agrees with the histories of its cells.

## Main statements

* `Table.records_build`: a table records its entries.
* `Grammar.cell?_table`: in a table without conflicts, an alternative stands in each of its cells.
-/

namespace PredictiveParsing

/-! ## Changes in a list -/

section Changes

variable {α : Type} [DecidableEq α] {x y : α} {xs : List α} {e : α × α}

/-- The neighbours in a list that differ from each other, in order. -/
def changes : List α → List (α × α)
  | x :: y :: xs => if x = y then changes (y :: xs) else (x, y) :: changes (y :: xs)
  | _ => []

/-- One more element is a change if it differs from the last one. -/
theorem changes_concat (xs : List α) (y : α) :
    changes (xs ++ [y]) = changes xs ++ ((xs.getLast?.filter (· ≠ y)).map (·, y)).toList := by
  fun_induction changes xs with
  | case1 x xs ih => simpa [changes] using ih
  | case2 x z xs h ih => simpa [changes, h] using ih
  | case3 xs hshort =>
    match xs with
    | [] => rfl
    | [x] => by_cases h : x = y <;> simp [changes, h, Option.filter]
    | x :: z :: xs => exact absurd rfl (hshort x z xs)

/-- A list without changes repeats one element. -/
theorem changes_eq_nil_iff : changes xs = [] ↔ ∀ x ∈ xs, ∀ y ∈ xs, x = y := by
  fun_induction changes xs with
  | case1 x xs ih =>
    rw [ih]
    simp
  | case2 x y xs h =>
    exact iff_of_false (by simp) fun hall => h (hall x (by simp) y (by simp))
  | case3 xs hshort =>
    match xs with
    | [] => simp
    | [x] => simp
    | x :: y :: xs => exact absurd rfl (hshort x y xs)

/-- A change is one of two elements that differ. -/
theorem mem_changes (h : e ∈ changes xs) : e.1 ∈ xs ∧ e.2 ∈ xs ∧ e.1 ≠ e.2 := by
  fun_induction changes xs with
  | case1 x xs ih =>
    obtain ⟨hfirst, hsecond, hne⟩ := ih h
    exact ⟨List.mem_cons_of_mem _ hfirst, List.mem_cons_of_mem _ hsecond, hne⟩
  | case2 x y xs hxy ih =>
    rcases List.mem_cons.1 h with rfl | h
    · exact ⟨List.mem_cons_self, List.mem_cons_of_mem _ List.mem_cons_self, hxy⟩
    · obtain ⟨hfirst, hsecond, hne⟩ := ih h
      exact ⟨List.mem_cons_of_mem _ hfirst, List.mem_cons_of_mem _ hsecond, hne⟩
  | case3 => cases h

end Changes

namespace Table

variable {t : Table} {first : FirstSets} {follow : FollowSets} {name : String} {x : Symbol}
  {p : Alternative} {e : (String × Symbol) × Alternative}
  {es : List ((String × Symbol) × Alternative)}

/-- The entries of a table in the order in which they are put in. -/
def entries (first : FirstSets) (follow : FollowSets) : List ((String × Symbol) × Alternative) :=
  first.grammar.rules.flatMap fun r => r.alternatives.flatMap fun p =>
    (lookaheadsOf first follow r.name p).map fun x => ((r.name, x), p)

/-- Puts an entry into a table. -/
def put (t : Table) (e : (String × Symbol) × Alternative) : Table := t.fill e.1.1 e.2 e.1.2

/-- The table without entries. -/
def empty (first : FirstSets) (follow : FollowSets) : Table := ⟨first.grammar, follow, [], []⟩

theorem build_eq_foldl (first : FirstSets) (follow : FollowSets) :
    build first follow = (entries first follow).foldl put (empty first follow) := by
  simp only [build, entries, List.foldl_flatMap, List.foldl_map]
  rfl

@[simp] theorem cells_put : (t.put e).cells = e :: t.cells := rfl

theorem cells_foldl_put : (es.foldl put t).cells = es.reverse ++ t.cells := by
  induction es generalizing t with
  | nil => rfl
  | cons e es ih => simp [ih]

/-- The cells are the entries, the last one first. -/
theorem cells_build : (build first follow).cells = (entries first follow).reverse := by
  rw [build_eq_foldl, cells_foldl_put]
  simp [empty]

@[simp] theorem grammar_build : (build first follow).grammar = first.grammar := by
  rw [build_eq_foldl]
  generalize entries first follow = es
  suffices ∀ t : Table, (es.foldl put t).grammar = t.grammar from this _
  induction es with
  | nil => exact fun _ => rfl
  | cons e es ih => exact fun t => ih (t.put e)

theorem mem_entries :
    e ∈ entries first follow ↔ ∃ r ∈ first.grammar.rules, r.name = e.1.1 ∧ e.2 ∈ r.alternatives ∧
      e.1.2 ∈ lookaheadsOf first follow e.1.1 e.2 := by
  obtain ⟨⟨name, x⟩, p⟩ := e
  simp only [entries, List.mem_flatMap, List.mem_map, Prod.mk.injEq]
  constructor
  · rintro ⟨r, hr, p, hp, x, hx, ⟨rfl, rfl⟩, rfl⟩
    exact ⟨r, hr, rfl, hp, hx⟩
  · rintro ⟨r, hr, rfl, hp, hx⟩
    exact ⟨r, hr, p, hp, x, hx, ⟨rfl, rfl⟩, rfl⟩

theorem mem_lookaheadsOf :
    x ∈ lookaheadsOf first follow name p ↔ x ∈ first.grammar.terminals ∧
      (x ∈ first.ofSequence p ∨
        (.epsilon ∈ first.ofSequence p ∧ x ∈ (follow.get? name).getD [])) := by
  simp only [lookaheadsOf, List.mem_append, List.mem_filter, List.contains_iff_mem,
    Bool.and_eq_true, Bool.not_eq_true']
  by_cases h : .epsilon ∈ first.ofSequence p <;> by_cases hx : x ∈ first.ofSequence p <;>
    simp [h, hx]

/-- A cell holds an alternative of its nonterminal, and is that of one of its lookaheads. -/
theorem mem_entries_of_cell? (h : (build first follow).cell? name x = some p) :
    ((name, x), p) ∈ entries first follow := by
  have := mem_of_cell? h
  rwa [cells_build, List.mem_reverse] at this

/-- What is put into a cell is an alternative of its nonterminal. -/
theorem mem_alternatives_of_mem_entries (hg : first.grammar.WellFormed)
    (h : ((name, x), p) ∈ entries first follow) : p ∈ first.grammar.alternatives name := by
  obtain ⟨r, hr, hname, hp, -⟩ := mem_entries.1 h
  exact (Grammar.mem_alternatives hg.nodup).2 ⟨r, hr, hname, hp⟩

/-- A cell holds an alternative of its nonterminal. -/
theorem mem_alternatives_of_cell? (hg : first.grammar.WellFormed)
    (h : (build first follow).cell? name x = some p) : p ∈ first.grammar.alternatives name :=
  mem_alternatives_of_mem_entries hg (mem_entries_of_cell? h)

/-! ## What has become of a cell -/

theorem cell?_put : (t.put e).cell? name x
    = if e.1 = (name, x) then some e.2 else t.cell? name x := by
  obtain ⟨⟨other, y⟩, q⟩ := e
  simp only [cell?, cells_put, List.lookup_cons, eq_comm]
  split <;> split <;> grind

/-- An entry that meets a different alternative in its cell is a conflict. -/
theorem conflicts_put (t : Table) (e : (String × Symbol) × Alternative) :
    (t.put e).conflicts = t.conflicts ++
      (((t.cell? e.1.1 e.1.2).filter (· ≠ e.2)).map fun q => ⟨e.1.1, e.1.2, q, e.2⟩).toList := by
  simp only [put, fill]
  cases t.cell? e.1.1 e.1.2 with
  | none => simp
  | some q => by_cases h : q = e.2 <;> simp [h, Option.filter]

/-- The alternatives that some entries put into one cell, in order. -/
def history (es : List ((String × Symbol) × Alternative)) (name : String) (x : Symbol) :
    List Alternative :=
  (es.filter fun e => e.1 == (name, x)).map Prod.snd

theorem history_concat :
    history (es ++ [e]) name x
      = history es name x ++ if e.1 = (name, x) then [e.2] else [] := by
  by_cases h : e.1 = (name, x) <;> simp [history, h]

theorem mem_history : p ∈ history es name x ↔ ((name, x), p) ∈ es := by
  simp [history, and_comm]

/-- The conflicts that are recorded for one cell, in order. -/
def conflictsAt (t : Table) (name : String) (x : Symbol) : List Conflict :=
  t.conflicts.filter fun c => c.nonterminal == name && c.terminal == x

/-- The conflict in which one alternative takes the place of another. -/
def conflictOf (name : String) (x : Symbol) (change : Alternative × Alternative) : Conflict :=
  ⟨name, x, change.1, change.2⟩

/-- A table holds the last of the alternatives that entries have put into a cell, and has recorded
where one of them took the place of a different one. -/
structure Records (t : Table) (es : List ((String × Symbol) × Alternative)) : Prop where
  holds : ∀ name x, t.cell? name x = (history es name x).getLast?
  changed : ∀ name x,
    t.conflictsAt name x = (changes (history es name x)).map (conflictOf name x)

theorem Records.concat (h : t.Records es) (e : (String × Symbol) × Alternative) :
    (t.put e).Records (es ++ [e]) where
  holds name x := by
    rw [cell?_put, history_concat, h.holds]
    split <;> simp
  changed name x := by
    rw [Table.conflictsAt, conflicts_put, List.filter_append, history_concat]
    by_cases he : e.1 = (name, x)
    · rw [if_pos he, changes_concat, List.map_append, ← h.changed, ← h.holds, he]
      cases t.cell? name x with
      | none => rfl
      | some q => by_cases hq : q = e.2 <;> simp [hq, Option.filter, Table.conflictsAt, conflictOf]
    · rw [if_neg he, List.append_nil, ← h.changed]
      have hother : ¬ (e.1.1 = name ∧ e.1.2 = x) := fun hsame => he (Prod.ext hsame.1 hsame.2)
      cases (t.cell? e.1.1 e.1.2).filter (· ≠ e.2) <;> simp [Table.conflictsAt, hother]

theorem Records.foldl {done : List ((String × Symbol) × Alternative)} (h : t.Records done)
    (es : List ((String × Symbol) × Alternative)) : (es.foldl put t).Records (done ++ es) := by
  induction es generalizing t done with
  | nil => simpa using h
  | cons e es ih => simpa using ih (h.concat e)

/-- A table records its entries. -/
theorem records_build (first : FirstSets) (follow : FollowSets) :
    (build first follow).Records (entries first follow) := by
  have hempty : (empty first follow).Records [] := ⟨fun _ _ => rfl, fun _ _ => rfl⟩
  rw [build_eq_foldl]
  exact hempty.foldl (entries first follow)

/-- A conflict is one of two different alternatives of its nonterminal. -/
theorem alternatives_of_mem_conflicts (hg : first.grammar.WellFormed) {c : Conflict}
    (hc : c ∈ (build first follow).conflicts) :
    c.replaced ∈ first.grammar.alternatives c.nonterminal ∧
      c.winner ∈ first.grammar.alternatives c.nonterminal ∧ c.replaced ≠ c.winner := by
  have hat : c ∈ (build first follow).conflictsAt c.nonterminal c.terminal := by
    simp [conflictsAt, hc]
  rw [(records_build first follow).changed] at hat
  obtain ⟨change, hchange, hconflict⟩ := List.mem_map.1 hat
  obtain ⟨hreplaced, hwinner, hne⟩ := mem_changes hchange
  rw [← hconflict]
  exact ⟨mem_alternatives_of_mem_entries hg (mem_history.1 hreplaced),
    mem_alternatives_of_mem_entries hg (mem_history.1 hwinner), hne⟩

/-- A table is without conflicts if no cell has ever been filled with two alternatives. -/
theorem Records.isLL1_iff (h : t.Records es) :
    t.isLL1 = true ↔
      ∀ name x, ∀ p ∈ history es name x, ∀ q ∈ history es name x, p = q := by
  have hcells : t.conflicts = [] ↔ ∀ name x, t.conflictsAt name x = [] := by
    refine ⟨fun hnil => by simp [conflictsAt, hnil], fun hall => ?_⟩
    refine List.eq_nil_iff_forall_not_mem.2 fun c hc => ?_
    have hmem : c ∈ t.conflictsAt c.nonterminal c.terminal := by simp [conflictsAt, hc]
    rw [hall] at hmem
    cases hmem
  simp only [isLL1, List.isEmpty_iff, hcells, h.changed, List.map_eq_nil_iff,
    changes_eq_nil_iff]

/-- Without conflicts, each entry stands in its cell. -/
theorem cell?_build (h : (build first follow).isLL1)
    (he : ((name, x), p) ∈ entries first follow) :
    (build first follow).cell? name x = some p := by
  have hrecords := records_build first follow
  have hp : p ∈ history (entries first follow) name x := mem_history.2 he
  rw [hrecords.holds, List.getLast?_eq_some_getLast (List.ne_nil_of_mem hp)]
  exact congrArg some (hrecords.isLL1_iff.1 h name x _ (List.getLast_mem _) p hp)

end Table

namespace Grammar

variable {g : Grammar} {name : String} {x : Symbol} {p : Alternative}

theorem facts_followSets_subset (hg : g.WellFormed) : g.followFacts ⊆ g.factDomain :=
  saturate_subset (endFacts_subset hg)

theorem get?_followSets (h : name ∈ g.names) :
    g.firstSets.followSets.get? name = some (membersOf g.followFacts name) :=
  if_pos (declares_iff.2 h)

theorem WellFormed.mem_terminals_of_mem_lookaheads (hg : g.WellFormed) (h : x ∈ g.lookaheads)
    (hx : x ≠ .epsilon) : x ∈ g.terminals := by
  obtain ⟨hnone, hmem⟩ := mem_lookaheads.1 h
  cases x with
  | terminal a => exact hg.terminal_mem_terminals (by simpa using hmem)
  | nonterminal other => simp [Symbol.nonterminal?] at hnone
  | epsilon => exact absurd rfl hx
  | endMarker => exact mem_terminals.2 (.inl rfl)

/-- What an alternative expects is among its lookaheads. -/
theorem mem_lookaheadsOf_of_expects (hg : g.WellFormed) (hp : p ∈ g.alternatives name)
    (h : g.Expects (fun y => (name, y) ∈ g.followFacts) p x) (hx : x ≠ .epsilon) :
    x ∈ Table.lookaheadsOf g.firstSets g.firstSets.followSets name p := by
  have hget := get?_followSets (mem_names_of_mem_alternatives hp)
  have hlook : x ∈ g.lookaheads := by
    rcases h with ⟨h, -⟩ | ⟨-, h⟩
    · exact mem_lookaheads_of_mem_firstOf (facts_firstSets_subset g)
        (fun s hs => mem_occurrences_of_mem_alternatives hp hs) h
    · exact (mem_factDomain.1 (facts_followSets_subset hg h)).2
  refine Table.mem_lookaheadsOf.2 ⟨hg.mem_terminals_of_mem_lookaheads hlook hx, ?_⟩
  rw [hget]
  exact h.imp And.left (And.imp_right mem_membersOf.2)

/-- In a table without conflicts, an alternative stands in the cell of each symbol that it
expects. -/
theorem cell?_table (hg : g.WellFormed) (hll : g.table.isLL1) (hp : p ∈ g.alternatives name)
    (h : g.Expects (fun y => (name, y) ∈ g.followFacts) p x) (hx : x ≠ .epsilon) :
    g.table.cell? name x = some p := by
  obtain ⟨r, hr, rfl, hpr⟩ := exists_rule_of_mem_alternatives hp
  exact Table.cell?_build hll (Table.mem_entries.2
    ⟨r, hr, rfl, hpr, mem_lookaheadsOf_of_expects hg hp h hx⟩)

end Grammar

end PredictiveParsing
