import PredictiveParsing.Proofs.Cells
import PredictiveParsing.Proofs.Minting

/-!
# What a grammar says about itself

A grammar answers questions about names from its index, and it lists the terminals that it has
collected. Attainable grammars answer right, and so does each grammar in the middle of a change. The
two changes put new nonterminals between the old ones and move none of these. Nothing but the rules
and the start symbol matters for all that is computed from a grammar, so grammars that are the same
have the same terminals, the same sets and the same table.

## Main statements

* `Grammar.WellFormed.coherent`: what a well-formed grammar remembers agrees with its rules.
* `Grammar.addsPrimed_eliminateLeftRecursion`, `Grammar.addsPrimed_leftFactor`: the changes keep the
  order of the nonterminals, and the new ones have a prime.
* `Grammar.agree_of_same`: grammars that are the same agree in all that is computed from them.
* `Grammar.Attainable.representation`: all of this for attainable grammars.
-/

namespace PredictiveParsing

/-! ## Order of first appearance -/

section Order

variable {α : Type} [DecidableEq α]

/-- What comes first among some elements of a list comes first in the list. -/
theorem idxOf_lt_of_filter {p : α → Bool} {xs : List α} {x y : α} (hy : p y)
    (h : (xs.filter p).idxOf x < (xs.filter p).idxOf y) : xs.idxOf x < xs.idxOf y := by
  induction xs with
  | nil => exact h
  | cons z xs ih => by_cases hz : p z <;> grind

/-- Without its duplicates, a list is in order of first appearance. -/
theorem pairwise_idxOf_eraseDups (xs : List α) :
    xs.eraseDups.Pairwise (xs.idxOf · < xs.idxOf ·) := by
  induction hn : xs.length using Nat.strongRecOn generalizing xs with
  | ind n ih =>
    cases xs with
    | nil => simp
    | cons x xs =>
      have hlt : (xs.filter fun y => !y == x).length < n :=
        hn ▸ Nat.lt_succ_of_le (List.length_filter_le ..)
      rw [List.eraseDups_cons, List.pairwise_cons]
      constructor
      · intro y hy
        have hne : y ≠ x := by simpa using (List.mem_filter.1 (List.mem_eraseDups.1 hy)).2
        simp [hne.symm]
      · refine (ih _ hlt _ rfl).imp_of_mem fun {y z} hy hz hyz => ?_
        have hy := (List.mem_filter.1 (List.mem_eraseDups.1 hy)).2
        have hz := (List.mem_filter.1 (List.mem_eraseDups.1 hz)).2
        have := idxOf_lt_of_filter (p := fun y => !y == x) hz hyz
        grind

end Order

/-! ## Tables made from the same entries -/

namespace Table

variable {first first' : FirstSets} {follow follow' : FollowSets}

/-- Tables made from the same entries differ at most in the grammar and the `FOLLOW` sets. -/
theorem build_eq_of_entries (h : entries first follow = entries first' follow') :
    build first' follow'
      = { build first follow with grammar := first'.grammar, follow := follow' } := by
  let move (t : Table) : Table := { t with grammar := first'.grammar, follow := follow' }
  have hput : ∀ t e, (move t).put e = move (t.put e) := fun _ _ => rfl
  change _ = move (build first follow)
  rw [build_eq_foldl, build_eq_foldl, h, ← List.foldl_hom move hput]
  rfl

theorem follow_build : (build first follow).follow = follow :=
  congrArg Table.follow (build_eq_of_entries rfl)

end Table

namespace Grammar

variable {g h : Grammar} {name : String} {r : Rule}

/-! ## Coherent grammars -/

/-- What a grammar remembers and says about its nonterminals and its terminals agrees with its
rules. -/
structure Coherent (g : Grammar) : Prop where
  /-- No name is declared twice. -/
  nodup : g.names.Nodup
  /-- The index has each name at its own place, and no other name. -/
  index : ∀ name i, g.index.lookup name = some i ↔ g.names[i]? = some name
  /-- Each name has its own rule, and no other name has one. -/
  rule? : ∀ name r, g.rule? name = some r ↔ r ∈ g.rules ∧ r.name = name
  declares : ∀ name, g.declares name = true ↔ name ∈ g.names
  /-- The nonterminals in alternatives are declared. -/
  nonterminal : ∀ name, .nonterminal name ∈ g.occurrences → name ∈ g.names
  /-- The terminals in alternatives are not spelled like a nonterminal or the end marker. -/
  terminal : ∀ a, .terminal a ∈ g.occurrences → a ∉ g.names ∧ a ≠ "$"
  endMarker : .endMarker ∉ g.occurrences
  /-- The terminals are those of the alternatives, in order of first appearance and once each, and
  the end marker after them. -/
  terminals : ∃ ts, g.terminals = ts ++ [.endMarker] ∧
    (∀ s, s ∈ ts ↔ s ∈ g.occurrences ∧ ∃ a, s = .terminal a) ∧
    ts.Pairwise (g.occurrences.idxOf · < g.occurrences.idxOf ·)
  /-- The first nonterminal is the start symbol. -/
  start : g.names.head? = some g.start

theorem WellFormed.coherent (hg : g.WellFormed) : g.Coherent where
  nodup := hg.nodup
  index _ _ := lookup_index_eq_some hg.nodup
  rule? _ _ := rule?_eq_some hg.nodup
  declares _ := declares_iff
  nonterminal name := hg.admits (.nonterminal name)
  terminal a := hg.admits (.terminal a)
  endMarker := hg.admits .endMarker
  terminals := by
    refine ⟨(g.occurrences.filter g.ownTerminal).eraseDups, g.terminals_eq, fun s => ?_, ?_⟩
    · cases s with
      | terminal a =>
        have hown := fun h => (hg.admits (.terminal a) h).1
        simpa [ownTerminal, ← Bool.not_eq_true] using hown
      | _ => simp [ownTerminal]
    · refine (pairwise_idxOf_eraseDups _).imp_of_mem fun {s s'} _ hs' hlt => ?_
      exact idxOf_lt_of_filter (List.mem_filter.1 (List.mem_eraseDups.1 hs')).2 hlt
  start := hg.start

/-! ## New nonterminals -/

/-- The nonterminals of `g` are nonterminals of `h`, in the same order, and the others have a prime
in their names. -/
structure AddsPrimed (g h : Grammar) : Prop where
  order : g.names.Sublist h.names
  primed : ∀ name ∈ h.names, name ∈ g.names ∨ '\'' ∈ name.toList

namespace AddsPrimed

theorem refl (g : Grammar) : g.AddsPrimed g := ⟨.refl _, fun _ => .inl⟩

theorem trans {f : Grammar} (hgh : g.AddsPrimed h) (hhf : h.AddsPrimed f) : g.AddsPrimed f :=
  ⟨hgh.order.trans hhf.order, fun name hname => (hhf.primed name hname).elim (hgh.primed name) .inr⟩

/-- One more rule with a fresh name. -/
theorem insertAfter (hnames : h.names = g.names) (base last : String) (ps : List Alternative) :
    g.AddsPrimed (h.insertAfter last ⟨(g.fresh base).1, ps⟩) := by
  refine ⟨?_, fun name hname => ?_⟩
  · rw [← hnames]
    exact rules_sublist_insertAfter.map Rule.name
  · rw [names_insertAfter_perm.mem_iff, hnames] at hname
    rcases List.mem_cons.1 hname with rfl | hname
    · obtain ⟨digits, heq, -⟩ := g.toList_fresh base
      exact .inr (by simp [heq])
    · exact .inl hname

/-- A name without a prime is declared afterwards just if it was before. -/
theorem mem_names_iff (hgh : g.AddsPrimed h) (hname : '\'' ∉ name.toList) :
    name ∈ h.names ↔ name ∈ g.names :=
  ⟨fun hmem => (hgh.primed name hmem).resolve_right hname, fun hmem => hgh.order.subset hmem⟩

end AddsPrimed

theorem addsPrimed_eliminateRule (g : Grammar) (r : Rule) : g.AddsPrimed (g.eliminateRule r) := by
  by_cases hrec : r.recursive = []
  · rw [eliminateRule_of_nil hrec]
    exact .refl g
  · rw [eliminateRule_eq hrec]
    exact .insertAfter (by simp) ..

/-- Taking out left recursion adds nonterminals with a prime. -/
theorem addsPrimed_eliminateLeftRecursion (g : Grammar) :
    g.AddsPrimed g.eliminateLeftRecursion := by
  unfold eliminateLeftRecursion
  apply List.foldlRecOn (motive := fun h : Grammar => g.AddsPrimed h)
  · exact .refl g
  · exact fun h ih r _ => ih.trans (addsPrimed_eliminateRule h r)

theorem addsPrimed_addGroup (name : String) (f : Factoring) (members : List Alternative) :
    f.grammar.AddsPrimed (f.addGroup name members).grammar := by
  by_cases hsingle : ∃ p, members = [p]
  · obtain ⟨p, rfl⟩ := hsingle
    exact .refl _
  · rw [Factoring.addGroup_of_ne name f (not_exists.1 hsingle)]
    exact .insertAfter (by simp) ..

theorem addsPrimed_factorRule (g : Grammar) (r : Rule) : g.AddsPrimed (g.factorRule r).1 := by
  have hgroups : g.AddsPrimed (g.factorGroups r).grammar := by
    apply List.foldlRecOn (motive := fun f : Factoring => g.AddsPrimed f.grammar)
    · exact .refl g
    · exact fun f ih group _ => ih.trans (addsPrimed_addGroup r.name f group)
  exact ⟨by simpa [factorRule] using hgroups.order, by simpa [factorRule] using hgroups.primed⟩

/-- Left factoring adds nonterminals with a prime. -/
theorem addsPrimed_leftFactor (g : Grammar) : g.AddsPrimed g.leftFactor := by
  suffices ∀ queue : List Rule, g.AddsPrimed (g.factorQueue queue) from this g.rules
  intro queue
  fun_induction factorQueue g queue with
  | case1 => exact .refl _
  | case2 g r queue ih => exact (addsPrimed_factorRule g r).trans ih

/-- Taking out left recursion keeps the order of the nonterminals. -/
theorem names_sublist_eliminateLeftRecursion (g : Grammar) :
    g.names.Sublist g.eliminateLeftRecursion.names :=
  (addsPrimed_eliminateLeftRecursion g).order

/-- Left factoring keeps the order of the nonterminals. -/
theorem names_sublist_leftFactor (g : Grammar) : g.names.Sublist g.leftFactor.names :=
  (addsPrimed_leftFactor g).order

theorem ChangesTo.addsPrimed (hgh : g.ChangesTo h) : g.AddsPrimed h := by
  induction hgh with
  | refl => exact .refl g
  | eliminateLeftRecursion _ ih => exact ih.trans (addsPrimed_eliminateLeftRecursion _)
  | leftFactor _ ih => exact ih.trans (addsPrimed_leftFactor _)

/-! ## Grammars that are the same -/

/-- Grammars that are the same differ at most in the names that they have minted. -/
theorem eq_withMinted_of_same (hsame : g.same h = true) : h = g.withMinted h.minted := by
  obtain ⟨hrules, hstart⟩ : g.rules = h.rules ∧ g.start = h.start := by simpa [same] using hsame
  exact eq_of_rules hrules.symm hstart.symm rfl

/-- Two grammars have the same terminals, sets and table. -/
structure Agree (g h : Grammar) : Prop where
  terminals : g.terminals = h.terminals
  first : ∀ name, g.firstSets.get? name = h.firstSets.get? name
  ofSequence : ∀ u, g.firstSets.ofSequence u = h.firstSets.ofSequence u
  follow : ∀ name, g.firstSets.followSets.get? name = h.firstSets.followSets.get? name
  cells : ∀ name x, g.table.cell? name x = h.table.cell? name x
  conflicts : g.table.conflicts = h.table.conflicts
  sameFollow : g.firstSets.followSets.same h.firstSets.followSets = true
  sameTable : g.table.same h.table = true

theorem sameFacts_self (facts : List Fact) : sameFacts facts facts = true := by
  simp [sameFacts]

/-- Grammars that are the same agree: the minted names do not count for the terminals, the sets and
the entries of the table. -/
theorem agree_of_same (hsame : g.same h = true) : g.Agree h := by
  obtain ⟨n, rfl⟩ : ∃ n, h = g.withMinted n := ⟨_, eq_withMinted_of_same hsame⟩
  have hfollow : g.firstSets.followSets.same (g.withMinted n).firstSets.followSets = true :=
    Bool.and_eq_true_iff.2 ⟨hsame, sameFacts_self g.followFacts⟩
  have htable : (g.withMinted n).table = { g.table with
      grammar := g.withMinted n
      follow := (g.withMinted n).firstSets.followSets } :=
    Table.build_eq_of_entries rfl
  have hgrammar : g.table.grammar = g := Table.grammar_build
  refine ⟨rfl, fun _ => rfl, fun _ => rfl, fun _ => rfl, fun _ _ => ?_, ?_, hfollow, ?_⟩
  · rw [htable]
    rfl
  · rw [htable]
  · have hfollowSets : g.table.follow = g.firstSets.followSets := Table.follow_build
    have hrows : g.table.rows = (g.withMinted n).table.rows := by
      rw [htable]
      simp only [Table.rows, hgrammar]
      rfl
    simp only [Table.same, hgrammar, hfollowSets, hrows]
    simp [htable, hsame, hfollow]

/-! ## Attainable grammars -/

/-- What an attainable grammar remembers and says about itself agrees with its rules, and so it does
at every point of further changes. Both changes keep its nonterminals in their order, and it agrees
with all grammars that are the same. -/
theorem Attainable.representation (hg : g.Attainable) :
    g.Coherent ∧ (∀ e, (Editing.resting g).Run e → e.grammar.Coherent) ∧
      g.names.Sublist g.eliminateLeftRecursion.names ∧ g.names.Sublist g.leftFactor.names ∧
      ∀ h, g.same h = true → g.Agree h := by
  have hwf : (Editing.resting g).WellFormed := hg.wellFormed
  exact ⟨hg.wellFormed.coherent, fun e hrun => (hwf.of_run hrun).grammar.coherent,
    names_sublist_eliminateLeftRecursion g, names_sublist_leftFactor g, fun _ => agree_of_same⟩

/-- A grammar that has counted for a new name, as a terminal had the primed one, and the same
grammar from a text. -/
theorem representation_of_text :
    let g : Grammar :=
      { rules := [⟨"S", [[.nonterminal "S", .terminal "S'"], [.terminal "b"]]⟩], start := "S" }
    let h : Grammar :=
      { rules := [⟨"S", [[.terminal "b", .nonterminal "S'1"]]⟩,
          ⟨"S'1", [[.terminal "S'", .nonterminal "S'1"], [.epsilon]]⟩]
        start := "S" }
    ofText "S -> S S' | b" = .ok g ∧ ofText "S -> b S'1; S'1 -> S' S'1 | ε" = .ok h ∧
      g.eliminateLeftRecursion.minted ≠ h.minted ∧
      g.eliminateLeftRecursion.Coherent ∧ g.eliminateLeftRecursion.same h = true ∧
      g.eliminateLeftRecursion.Agree h := by
  intro g h
  have hg : ofText "S -> S S' | b" = .ok g := by
    set_option maxRecDepth 2000 in rfl
  have hh : ofText "S -> b S'1; S'1 -> S' S'1 | ε" = .ok h := by
    set_option maxRecDepth 2000 in rfl
  have helim : g.eliminateLeftRecursion = h.withMinted 1 := by
    simp only [g]
    cbv
  have hminted : g.eliminateLeftRecursion.minted ≠ h.minted := by
    rw [helim]
    decide
  have hsame : g.eliminateLeftRecursion.same h = true := by
    rw [helim]
    decide
  obtain ⟨hcoherent, -, -, -, hagree⟩ :=
    Attainable.representation (.eliminateLeftRecursion (.ofText hg))
  exact ⟨hg, hh, hminted, hcoherent, hsame, hagree h hsame⟩

end Grammar

end PredictiveParsing
