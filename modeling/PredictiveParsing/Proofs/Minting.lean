import PredictiveParsing.Proofs.HelperRules

/-!
# Names minted on the way

A change of a grammar mints names in the middle of its work. So whether a name is fresh is a
question about the grammar as it is at that point, and about all names minted later. The work is
taken apart into steps, down to single groups of alternatives, and the grammar is well-formed
between any two of them.

## Main definitions

* `Editing`: a grammar and what is left to do to it.
* `Editing.Step`, `Editing.Run`: the work in steps.
* `Grammar.Search`: how the search for a name goes.

## Main statements

* `Editing.changesTo_iff_run`: the snapshots between changes are what the changes make.
* `Editing.Step.names_perm`: a step that mints a name adds just this name.
* `Editing.WellFormed.of_run`: the invariant of all steps.
* `Editing.minted_names`: minted names are fresh, they are found, and no two of them are equal.
-/

namespace PredictiveParsing

/-! ## The search for a name -/

/-- How the search for a name that is derived from `base` goes. It is the primed name if that is
free. Otherwise the numbers behind the count are tried one after the other, all names are taken up
to the one that is found, and there are no more of them than names in use. -/
inductive Grammar.Search (g : Grammar) (base : String) : String × Grammar → Prop
  | primed (hfree : ¬ g.isTaken (base ++ "'")) : Search g base (base ++ "'", g)
  | numbered {n : Nat} (hprimed : g.isTaken (base ++ "'")) (hcount : g.minted < n)
      (htaken : ∀ m, g.minted < m → m < n → g.isTaken (numbered base m))
      (hfree : ¬ g.isTaken (numbered base n)) (hbound : n ≤ g.minted + g.taken.length + 1) :
      Search g base (numbered base n, g.withMinted n)

/-- The search finds a name. -/
theorem Grammar.search_fresh (g : Grammar) (base : String) : g.Search base (g.fresh base) := by
  unfold fresh
  split
  next hprimed =>
    exact .numbered hprimed (lt_nextFree ..) (fun _ => isTaken_of_lt_nextFree)
      (not_isTaken_nextFree g base g.minted) (nextFree_le ..)
  next hfree => exact .primed hfree

theorem Grammar.minted_le_fresh (g : Grammar) (base : String) :
    g.minted ≤ (g.fresh base).2.minted := by
  unfold fresh
  split
  · exact (lt_nextFree ..).le
  · exact le_rfl

/-! ## The work in steps -/

/-- A grammar and what is left to do to it. -/
inductive Editing where
  /-- No change is under way. -/
  | resting (g : Grammar)
  /-- Left recursion is taken out of the rules of `queue`. -/
  | eliminating (g : Grammar) (queue : List Rule)
  /-- The rules of `queue` are factored. -/
  | factoring (g : Grammar) (queue : List Rule)
  /-- The rule `r` is factored, with some groups to come, and then those of `queue`. -/
  | grouping (f : Factoring) (r : Rule) (groups : List (List Alternative)) (queue : List Rule)

namespace Editing

/-- The grammar as it is at this point. -/
def grammar : Editing → Grammar
  | resting g => g
  | eliminating g _ => g
  | factoring g _ => g
  | grouping f _ _ _ => f.grammar

/-- One step of the work. A change may begin whenever none is under way. -/
inductive Step : Editing → Editing → Prop
  | eliminate (g : Grammar) : Step (resting g) (eliminating g g.rules)
  | eliminateRule (g : Grammar) (r : Rule) (queue : List Rule) :
      Step (eliminating g (r :: queue)) (eliminating (g.eliminateRule r) queue)
  | eliminated (g : Grammar) : Step (eliminating g []) (resting g)
  | factor (g : Grammar) : Step (resting g) (factoring g g.rules)
  | factorRule (g : Grammar) (r : Rule) (queue : List Rule) :
      Step (factoring g (r :: queue))
        (grouping ⟨g, r.name, [], []⟩ r ((leadGroups r.alternatives).map (·.map Prod.fst)) queue)
  | addGroup (f : Factoring) (r : Rule) (members : List Alternative)
      (groups : List (List Alternative)) (queue : List Rule) :
      Step (grouping f r (members :: groups) queue)
        (grouping (f.addGroup r.name members) r groups queue)
  | factoredRule (f : Factoring) (r : Rule) (queue : List Rule) :
      Step (grouping f r [] queue)
        (factoring (f.grammar.setAlternatives r.name f.alternatives) (queue ++ f.added))
  | factored (g : Grammar) : Step (factoring g []) (resting g)

/-- Any number of steps. -/
def Run : Editing → Editing → Prop := Relation.ReflTransGen Step

/-- The nonterminal for which the next step mints a name, if it does: one that begins an alternative
of its own, or one with a group of alternatives that is not a single one. -/
def mints? : Editing → Option String
  | eliminating _ (r :: _) => if r.recursive.isEmpty then none else some r.name
  | grouping _ _ ([_] :: _) _ => none
  | grouping _ r (_ :: _) _ => some r.name
  | _ => none

variable {e e' : Editing} {base : String}

/-! ## The changes, step by step -/

/-- The grammar that comes out when the change under way is done. -/
def result : Editing → Grammar
  | resting g => g
  | eliminating g queue => queue.foldl Grammar.eliminateRule g
  | factoring g queue => g.factorQueue queue
  | grouping f r groups queue =>
    let f' := groups.foldl (Factoring.addGroup r.name) f
    (f'.grammar.setAlternatives r.name f'.alternatives).factorQueue (queue ++ f'.added)

theorem run_eliminating (g : Grammar) (queue : List Rule) :
    (eliminating g queue).Run (resting (queue.foldl Grammar.eliminateRule g)) := by
  induction queue generalizing g with
  | nil => exact .single (.eliminated g)
  | cons r queue ih => exact .head (.eliminateRule g r queue) (ih (g.eliminateRule r))

theorem run_grouping (f : Factoring) (r : Rule) (groups : List (List Alternative))
    (queue : List Rule) :
    (grouping f r groups queue).Run
      (grouping (groups.foldl (Factoring.addGroup r.name) f) r [] queue) := by
  induction groups generalizing f with
  | nil => exact .refl
  | cons members groups ih => exact .head (.addGroup ..) (ih (f.addGroup r.name members))

theorem run_factoring (g : Grammar) (queue : List Rule) :
    (factoring g queue).Run (resting (g.factorQueue queue)) := by
  fun_induction Grammar.factorQueue g queue with
  | case1 g => exact .single (.factored g)
  | case2 g r queue ih =>
    exact .head (.factorRule g r queue) ((run_grouping ..).trans (.head (.factoredRule ..) ih))

/-- A step within a change does not matter for what comes out of it. -/
theorem Step.result_eq (h : e.Step e') :
    (∃ g, e = resting g ∧ (e'.result = g.eliminateLeftRecursion ∨ e'.result = g.leftFactor)) ∨
      e'.result = e.result := by
  cases h with
  | eliminate g => exact .inl ⟨g, rfl, .inl rfl⟩
  | factor g => exact .inl ⟨g, rfl, .inr rfl⟩
  | factorRule g r queue =>
    refine .inr ?_
    rw [result, result, Grammar.factorQueue]
    rfl
  | factored g => exact .inr (by rw [result, result, Grammar.factorQueue])
  | _ => exact .inr rfl

/-- The snapshots between changes are what any number of changes makes of a grammar. -/
theorem changesTo_iff_run {g h : Grammar} : g.ChangesTo h ↔ (resting g).Run (resting h) := by
  constructor
  · intro hgh
    induction hgh with
    | refl => exact .refl
    | eliminateLeftRecursion _ ih =>
      exact ih.trans (.head (.eliminate _) (run_eliminating ..))
    | leftFactor _ ih => exact ih.trans (.head (.factor _) (run_factoring ..))
  · suffices ∀ e, (resting g).Run e → g.ChangesTo e.result from this (resting h)
    intro e hrun
    induction hrun with
    | refl => exact .refl
    | tail _ hstep ih =>
      rcases hstep.result_eq with ⟨f, rfl, heq | heq⟩ | heq <;> rw [heq]
      · exact ih.eliminateLeftRecursion
      · exact ih.leftFactor
      · exact ih

/-! ## The names -/

/-- A step that does not mint a name leaves the nonterminals and the count as they are. -/
theorem Step.names_eq (h : e.Step e') (hnone : e.mints? = none) :
    e'.grammar.names = e.grammar.names ∧ e'.grammar.minted = e.grammar.minted := by
  cases h with
  | eliminateRule g r queue =>
    have hrec : r.recursive = [] := by simpa [mints?] using hnone
    rw [grammar, grammar, Grammar.eliminateRule_of_nil hrec]
    exact ⟨rfl, rfl⟩
  | addGroup f r members groups queue =>
    match members with
    | [p] => exact ⟨rfl, rfl⟩
    | [] | p :: q :: ps => simp [mints?] at hnone
  | factoredRule f r queue => exact ⟨Grammar.names_setAlternatives, Grammar.minted_setAlternatives⟩
  | _ => exact ⟨rfl, rfl⟩

/-- A step that mints a name declares it, and counts it if it has a number. -/
theorem Step.names_perm (h : e.Step e') (hbase : e.mints? = some base) :
    e'.grammar.names.Perm ((e.grammar.fresh base).1 :: e.grammar.names) ∧
      e'.grammar.minted = (e.grammar.fresh base).2.minted := by
  cases h with
  | eliminateRule g r queue =>
    obtain ⟨hrec, rfl⟩ : r.recursive ≠ [] ∧ r.name = base := by simpa [mints?] using hbase
    refine ⟨Grammar.names_eliminateRule_perm hrec, ?_⟩
    rw [grammar, Grammar.eliminateRule_eq hrec]
    exact Grammar.minted_setAlternatives
  | addGroup f r members groups queue =>
    have hmany : ∀ p, members ≠ [p] := by
      rintro p rfl
      simp [mints?] at hbase
    obtain rfl : r.name = base := by
      match members with
      | [p] => exact absurd rfl (hmany p)
      | [] | p :: q :: ps => simpa [mints?] using hbase
    refine ⟨(Factoring.rules_addGroup_perm r.name f hmany).map Rule.name, ?_⟩
    rw [grammar, Factoring.addGroup_of_ne r.name f hmany]
    rfl
  | _ => simp [mints?] at hbase

/-- Names are not taken away, and the count does not go back. -/
theorem Step.names_subset (h : e.Step e') :
    e.grammar.names ⊆ e'.grammar.names ∧ e.grammar.minted ≤ e'.grammar.minted := by
  cases hbase : e.mints? with
  | none =>
    obtain ⟨hnames, hminted⟩ := h.names_eq hbase
    exact ⟨hnames ▸ List.Subset.refl _, hminted.ge⟩
  | some base =>
    obtain ⟨hnames, hminted⟩ := h.names_perm hbase
    refine ⟨fun name hname => hnames.mem_iff.2 (List.mem_cons_of_mem _ hname), ?_⟩
    rw [hminted]
    exact e.grammar.minted_le_fresh base

theorem Run.names_subset (h : e.Run e') :
    e.grammar.names ⊆ e'.grammar.names ∧ e.grammar.minted ≤ e'.grammar.minted := by
  induction h with
  | refl => exact ⟨List.Subset.refl _, le_rfl⟩
  | tail _ hstep ih =>
    exact ⟨List.Subset.trans ih.1 hstep.names_subset.1, ih.2.trans hstep.names_subset.2⟩

/-! ## The invariant -/

/-- The rules that are left to do are rules of the grammar, with different names. -/
structure Pending (g : Grammar) (queue : List Rule) : Prop where
  nodup : (queue.map Rule.name).Nodup
  mem : ∀ q ∈ queue, q ∈ g.rules

/-- The invariant of the work. Within the work on a rule, the groups that are done and those to come
are the groups of this rule in the grammar at its beginning. -/
def WellFormed : Editing → Prop
  | resting g => g.WellFormed
  | eliminating g queue => g.WellFormed ∧ Pending g queue
  | factoring g queue => g.WellFormed ∧ Pending g queue
  | grouping f r groups queue => ∃ g : Grammar, g.WellFormed ∧ Pending g (r :: queue) ∧
      f.WellFormed g ∧ (∀ members ∈ groups, members ≠ [] ∧ ∀ p ∈ members, p ∈ r.alternatives) ∧
      groups.foldl (Factoring.addGroup r.name) f = g.factorGroups r

theorem WellFormed.grammar (h : e.WellFormed) : e.grammar.WellFormed := by
  cases e with
  | resting g => exact h
  | eliminating g queue => exact h.1
  | factoring g queue => exact h.1
  | grouping f r groups queue =>
    obtain ⟨_, -, -, hf, -⟩ := h
    exact hf.grammar

theorem WellFormed.step (he : e.WellFormed) (h : e.Step e') : e'.WellFormed := by
  cases h with
  | eliminate g => exact ⟨he, Grammar.WellFormed.nodup he, fun _ hq => hq⟩
  | eliminateRule g r queue =>
    obtain ⟨hg, hnodup, hmem⟩ := he
    exact ⟨Grammar.wellFormed_eliminateRule hg (hmem r List.mem_cons_self),
      (List.nodup_cons.1 hnodup).2, Grammar.mem_rules_eliminateRule_of_nodup hnodup hmem⟩
  | eliminated g => exact he.1
  | factor g => exact ⟨he, Grammar.WellFormed.nodup he, fun _ hq => hq⟩
  | factorRule g r queue =>
    obtain ⟨hg, hpending⟩ := he
    exact ⟨g, hg, hpending, ⟨hg, .refl _, by simp⟩, fun _ => Grammar.mem_groups_of_rule, rfl⟩
  | addGroup f r members groups queue =>
    obtain ⟨g, hg, hpending, hf, hgroups, heq⟩ := he
    obtain ⟨hne, hmem⟩ := hgroups members List.mem_cons_self
    exact ⟨g, hg, hpending, hf.addGroup (hpending.mem r List.mem_cons_self) hmem hne,
      fun _ hlater => hgroups _ (List.mem_cons_of_mem _ hlater), heq⟩
  | factoredRule f r queue =>
    obtain ⟨g, hg, hpending, -, -, heq⟩ := he
    obtain rfl : f = g.factorGroups r := heq
    obtain ⟨hnodup, hmem⟩ := Grammar.queue_factorRule hg hpending.nodup hpending.mem
    exact ⟨Grammar.wellFormed_factorRule hg (hpending.mem r List.mem_cons_self), hnodup, hmem⟩
  | factored g => exact he.1

theorem WellFormed.of_run (he : e.WellFormed) (h : e.Run e') : e'.WellFormed := by
  induction h with
  | refl => exact he
  | tail _ hstep ih => exact ih.step hstep

/-! ## Fresh names -/

/-- The check for a name, which reads the index and the terminals, is right about the alternatives
at every point of the work. -/
theorem WellFormed.isTaken_iff (he : e.WellFormed) (name : String) :
    e.grammar.isTaken name ↔ name ∈ e.grammar.names ∨ name = "$" ∨
      ∃ s ∈ e.grammar.occurrences, s ≠ .epsilon ∧ s.name = name := by
  rw [Grammar.isTaken_iff_of_rules]
  refine or_congr_right' fun hname => or_congr_right ⟨fun hs => ⟨_, hs, by simp, rfl⟩, ?_⟩
  rintro ⟨s, hs, hne, rfl⟩
  have hadmits := he.grammar.admits s hs
  cases s with
  | terminal a => exact hs
  | nonterminal b => exact absurd hadmits hname
  | epsilon => exact absurd rfl hne
  | endMarker => exact hadmits.elim

/-- A minted name is the name of no nonterminal and of no symbol in an alternative. -/
theorem WellFormed.fresh_unused (he : e.WellFormed) (base : String) :
    (e.grammar.fresh base).1 ∉ e.grammar.names ∧
      ∀ s ∈ e.grammar.occurrences, s.name ≠ (e.grammar.fresh base).1 :=
  ⟨Grammar.fresh_not_mem_names e.grammar base, fun _ hs =>
    Grammar.name_ne_of_not_mem_taken he.grammar (Grammar.fresh_not_mem_taken e.grammar base)
      (e.grammar.not_spellsEpsilon_fresh base) (.inl (.inl hs))⟩

/-- In all that changes do to the grammar of a text, the check for a name is right and the count
does not go back, and whenever a name is minted the search finds one, it is the name of no symbol,
and it is declared from then on. So no name is minted twice. -/
theorem minted_names {text : String} {g : Grammar} (hg : Grammar.ofText text = .ok g) :
    (∀ h, g.ChangesTo h ↔ (resting g).Run (resting h)) ∧
    ∀ e, (resting g).Run e →
      (∀ name, e.grammar.isTaken name ↔ name ∈ e.grammar.names ∨ name = "$" ∨
        ∃ s ∈ e.grammar.occurrences, s ≠ .epsilon ∧ s.name = name) ∧
      (∀ e', e.Run e' → e.grammar.minted ≤ e'.grammar.minted) ∧
      (∀ e', e.Step e' → e.mints? = none → e'.grammar.names = e.grammar.names) ∧
      ∀ base, e.mints? = some base →
        e.grammar.Search base (e.grammar.fresh base) ∧
        (e.grammar.fresh base).1 ∉ e.grammar.names ∧
        (∀ s ∈ e.grammar.occurrences, s.name ≠ (e.grammar.fresh base).1) ∧
        ∀ e' later, e.Step e' → e'.Run later →
          e'.grammar.names.Perm ((e.grammar.fresh base).1 :: e.grammar.names) ∧
          ∀ base', later.mints? = some base' →
            (later.grammar.fresh base').1 ≠ (e.grammar.fresh base).1 := by
  refine ⟨fun _ => changesTo_iff_run, fun e hrun => ?_⟩
  have hwf : (resting g).WellFormed := Grammar.wellFormed_ofText hg
  have he := hwf.of_run hrun
  refine ⟨he.isTaken_iff, fun e' hlater => hlater.names_subset.2,
    fun e' hstep hnone => (hstep.names_eq hnone).1, fun base hbase => ?_⟩
  obtain ⟨hnames, hsymbols⟩ := he.fresh_unused base
  refine ⟨e.grammar.search_fresh base, hnames, hsymbols, fun e' later hstep hlater => ?_⟩
  have hperm := (hstep.names_perm hbase).1
  refine ⟨hperm, fun base' _ heq => ?_⟩
  -- The earlier name is still declared when the later one is found.
  have hdeclared : (e.grammar.fresh base).1 ∈ later.grammar.names :=
    hlater.names_subset.1 (hperm.mem_iff.2 List.mem_cons_self)
  exact Grammar.fresh_not_mem_names later.grammar base' (heq ▸ hdeclared)

/-- Two names for one nonterminal, one for its helper and one for a group of its new alternatives,
in a text that has the primed name and a numbered one for its terminals. -/
theorem minted_names_of_text :
    let r : Rule := ⟨"S", [[.nonterminal "S", .terminal "S'"], [.terminal "S'1", .terminal "a"],
      [.terminal "S'1", .terminal "b"]]⟩
    let leading : Rule := ⟨"S", [[.terminal "S'1", .terminal "a", .nonterminal "S'2"],
      [.terminal "S'1", .terminal "b", .nonterminal "S'2"]]⟩
    let helper : Rule := ⟨"S'2", [[.terminal "S'", .nonterminal "S'2"], [.epsilon]]⟩
    let g : Grammar := { rules := [r], start := "S" }
    let h : Grammar := { rules := [leading, helper], start := "S", minted := 2 }
    let e := eliminating g [r]
    let later := grouping ⟨h, "S", [], []⟩ leading [leading.alternatives] [helper]
    Grammar.ofText "S -> S S' | S'1 a | S'1 b" = .ok g ∧
      (resting g).Run e ∧ e.mints? = some "S" ∧ e.Step (eliminating h []) ∧
      (eliminating h []).Run later ∧ later.mints? = some "S" ∧
      (e.grammar.fresh "S").1 = "S'2" ∧ (later.grammar.fresh "S").1 = "S'3" ∧
      e.grammar.Search "S" (e.grammar.fresh "S") ∧
      (later.grammar.fresh "S").1 ≠ (e.grammar.fresh "S").1 := by
  intro r leading helper g h e later
  have hg : Grammar.ofText "S -> S S' | S'1 a | S'1 b" = .ok g := by
    set_option maxRecDepth 4000 in rfl
  have hrun : (resting g).Run e := .single (.eliminate g)
  have helim : g.eliminateRule r = h := by
    simp only [g, r, h, leading, helper]
    cbv
  have hstep : e.Step (eliminating h []) := helim ▸ .eliminateRule g r []
  have hgroups : (leadGroups leading.alternatives).map (·.map Prod.fst)
      = [leading.alternatives] := by
    simp only [leading]
    cbv
  have hfactor : (factoring h h.rules).Step later := by
    have hstep := Step.factorRule h leading [helper]
    rwa [hgroups] at hstep
  have hlater : (eliminating h []).Run later :=
    .head (.eliminated h) (.head (.factor h) (.single hfactor))
  have hfirst : (e.grammar.fresh "S").1 = "S'2" := by
    simp only [e, g, r, grammar]
    cbv
  have hsecond : (later.grammar.fresh "S").1 = "S'3" := by
    simp only [later, h, leading, helper, grammar]
    cbv
  obtain ⟨hsearch, -, -, hdiffer⟩ := ((minted_names hg).2 e hrun).2.2.2 "S" (by rfl)
  exact ⟨hg, hrun, by rfl, hstep, hlater, by rfl, hfirst, hsecond, hsearch,
    (hdiffer _ later hstep hlater).2 "S" (by rfl)⟩

end Editing

end PredictiveParsing
