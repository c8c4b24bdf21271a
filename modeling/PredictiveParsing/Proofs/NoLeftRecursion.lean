import PredictiveParsing.Proofs.Cells
import PredictiveParsing.Proofs.FollowExact
import PredictiveParsing.Proofs.LoopGuard

/-!
# Tables without conflicts have no left recursion

Let the table of a grammar be without conflicts, and let the cell of a nonterminal at some lookahead
be filled. Then a number of replacements brings the nonterminal to a form that starts with the
lookahead, or to nothing where the lookahead can follow it. The parser makes just these moves, also
after errors from which it has recovered. A nonterminal that came up within its own expansion would
be brought there in fewer replacements than it takes.

## Main definitions

* `Grammar.Exposes`: a number of replacements brings a form to a lookahead.
* `Grammar.OnCourse`: a form that comes to a lookahead, with `FOLLOW` sets that hold for it.

## Main statements

* `Grammar.Expects.exists_exposes`: a form comes to each lookahead that it expects.
* `Grammar.OnCourse.idle`: moves that consume nothing follow the replacements.
* `Grammar.not_isLeftRecursion_of_isLL1`: without conflicts, no left recursion is reported.
-/

namespace PredictiveParsing

open Relation (ReflTransGen TransGen)

namespace Grammar

variable {g : Grammar} {after : Symbol → Prop} {name : String} {p : Alternative} {s x : Symbol}
  {n : Nat} {u v w : List Symbol}

/-! ## Coming to a lookahead -/

/-- After `n` replacements, each at the first nonterminal, and with the symbols for the empty word
before it erased, the form `u` starts with `x`, or nothing is left of it and `x` may come after it. -/
inductive Exposes (g : Grammar) (after : Symbol → Prop) (x : Symbol) : Nat → List Symbol → Prop
  | nil (h : after x) : Exposes g after x 0 []
  | top (hx : x.isTerminal) (u : List Symbol) : Exposes g after x 0 (x :: u)
  | epsilon {n : Nat} {u : List Symbol} (h : Exposes g after x n u) :
      Exposes g after x n (.epsilon :: u)
  | nonterminal {n : Nat} {name : String} {p : Alternative} {u : List Symbol}
      (hp : p ∈ g.alternatives name) (h : Exposes g after x n (p ++ u)) :
      Exposes g after x (n + 1) (.nonterminal name :: u)

theorem expects_cons_of_isTerminal (hs : s.isTerminal) :
    g.Expects after (s :: u) x ↔ x = s := by
  cases s <;> simp_all +contextual [Expects, FirstSets.ofSequence, firstOf, Symbol.isTerminal]

theorem Exposes.expects (h : g.Exposes after x n u) : g.Expects after u x := by
  induction h with
  | nil h => exact expects_nil.2 h
  | top hx => exact (expects_cons_of_isTerminal hx).2 rfl
  | epsilon _ ih => exact expects_cons_epsilon.2 ih
  | nonterminal hp _ ih => exact ih.nonterminal hp

/-- In front of every form, `v` brings the whole to `s`. If `s` is the empty word, `v` brings the whole
to each lookahead to which the other form comes. -/
def Opens (g : Grammar) (v : List Symbol) (s : Symbol) : Prop :=
  ∀ after x u, (x = s ∧ x.isTerminal) ∨ (s = .epsilon ∧ ∃ n, g.Exposes after x n u) →
    ∃ n, g.Exposes after x n (v ++ u)

theorem Opens.nonterminal (h : g.Opens p s) (hp : p ∈ g.alternatives name) :
    g.Opens [.nonterminal name] s := by
  intro after x u hx
  obtain ⟨n, hn⟩ := h after x u hx
  exact ⟨n + 1, .nonterminal hp hn⟩

/-- A form opens for the members of its `FIRST` set if the nonterminals do so for the facts. -/
theorem opens_of_mem_firstOf {facts : List Fact}
    (hfacts : ∀ fact ∈ facts, g.Opens [.nonterminal fact.1] fact.2) (h : s ∈ firstOf facts v) :
    g.Opens v s := by
  induction v with
  | nil =>
    obtain rfl := List.mem_singleton.1 h
    rintro after x u (⟨rfl, hx⟩ | ⟨-, hu⟩)
    · cases hx
    · exact hu
  | cons s' v ih =>
    have hsingle : ∀ y, y ∈ firstOf facts [s'] → g.Opens [s'] y := by
      intro y hy
      cases s' with
      | nonterminal name => exact hfacts _ (mem_firstOf_nonterminal.1 hy)
      | epsilon =>
        obtain rfl := List.mem_singleton.1 hy
        rintro after x u (⟨rfl, hx⟩ | ⟨-, n, hn⟩)
        · cases hx
        · exact ⟨n, .epsilon hn⟩
      | _ =>
        obtain rfl := List.mem_singleton.1 hy
        rintro after x u (⟨rfl, hx⟩ | ⟨hε, -⟩)
        · exact ⟨0, .top hx u⟩
        · cases hε
    intro after x u hcase
    rcases mem_firstOf_cons.1 h with ⟨h, hne⟩ | ⟨hε, h⟩
    · obtain ⟨rfl, hx⟩ := hcase.resolve_right fun hε => hne hε.1
      exact hsingle x h after x (v ++ u) (.inl ⟨rfl, hx⟩)
    · exact hsingle _ hε after x (v ++ u) (.inr ⟨rfl, ih h after x u hcase⟩)

theorem opens_of_mem_facts (hg : g.WellFormed) :
    ∀ fact ∈ g.firstSets.facts, g.Opens [.nonterminal fact.1] fact.2 := by
  refine saturate_induction (by simp) ?_
  intro rule hrule known hknown fact hfact
  obtain ⟨r, hr, p, hp, rfl⟩ := mem_firstRules.1 hrule
  obtain ⟨hname, hmem⟩ := mem_firstRule.1 hfact
  rw [hname]
  exact (opens_of_mem_firstOf hknown hmem).nonterminal (by rwa [hg.alternatives_eq hr])

/-- A form comes to each lookahead that it expects. -/
theorem Expects.exists_exposes (hg : g.WellFormed) (h : g.Expects after u x) (hx : x.isTerminal) :
    ∃ n, g.Exposes after x n u := by
  have hopens := fun {y} => opens_of_mem_firstOf (s := y) (v := u) (opens_of_mem_facts hg)
  have hempty : ∃ n, g.Exposes after x n (u ++ []) := by
    rcases h with ⟨h, -⟩ | ⟨hε, hafter⟩
    · exact hopens h after x [] (.inl ⟨rfl, hx⟩)
    · exact hopens hε after x [] (.inr ⟨rfl, 0, .nil hafter⟩)
  simpa using hempty

/-! ## Moves that consume nothing -/

/-- The form `u` comes to `x` after `n` replacements, and the `FOLLOW` sets hold what comes after each
of its nonterminals. -/
structure OnCourse (g : Grammar) (after : Symbol → Prop) (x : Symbol) (n : Nat) (u : List Symbol) :
    Prop where
  exposes : g.Exposes after x n u
  follows : g.Follows after u

namespace OnCourse

variable {mode : Recovery}

theorem popEpsilon (h : g.OnCourse after x n (.epsilon :: u)) (hx : x.isTerminal) :
    g.OnCourse after x n u := by
  obtain ⟨hexposes, hfollows⟩ := h
  cases hexposes with
  | top => cases hx
  | epsilon hexposes => exact ⟨hexposes, hfollows.tail⟩

/-- The next replacement is by the alternative in the cell. -/
theorem expand (hg : g.WellFormed) (hll : g.table.isLL1)
    (h : g.OnCourse after x n (.nonterminal name :: u)) (hx : x.isTerminal) :
    ∃ p m, n = m + 1 ∧ g.table.cell? name x = some p ∧ g.OnCourse after x m (p ++ u) := by
  obtain ⟨hexposes, hfollows⟩ := h
  cases hexposes with
  | top => cases hx
  | nonterminal hp hexposes =>
    have hne : x ≠ .epsilon := by
      rintro rfl
      cases hx
    refine ⟨_, _, rfl, cell?_table hg hll hp ?_ hne, hexposes, hfollows.expand hg hp⟩
    exact (expects_append.1 hexposes.expects).imp_right (And.imp_right hfollows.head)

theorem eq_of_isTerminal (h : g.OnCourse after x n (s :: u)) (hs : s.isTerminal) : s = x := by
  obtain ⟨hexposes, -⟩ := h
  cases hexposes with
  | top => rfl
  | epsilon => cases hs
  | nonterminal => cases hs

/-- A move that consumes nothing follows the replacements. -/
theorem idle (hg : g.WellFormed) (hll : g.table.isLL1) (h : g.OnCourse after x n u)
    (hx : x.isTerminal) (hmove : Idle g.table mode x u v) :
    ∃ m ≤ n, g.OnCourse after x m v := by
  cases hmove with
  | popEpsilon => exact ⟨n, le_rfl, h.popEpsilon hx⟩
  | expand hcell =>
    obtain ⟨q, m, rfl, hq, hm⟩ := h.expand hg hll hx
    obtain rfl := Option.some.inj (hcell.symm.trans hq)
    exact ⟨m, Nat.le_succ m, hm⟩
  | noRule _ hcell =>
    obtain ⟨q, -, -, hq, -⟩ := h.expand hg hll hx
    simp [hcell] at hq
  | drop _ hs hne => exact absurd (h.eq_of_isTerminal hs) hne

theorem idles (hg : g.WellFormed) (hll : g.table.isLL1) (h : g.OnCourse after x n u)
    (hx : x.isTerminal) (hmoves : ReflTransGen (Idle g.table mode x) u v) :
    ∃ m ≤ n, g.OnCourse after x m v := by
  induction hmoves with
  | refl => exact ⟨n, le_rfl, h⟩
  | tail _ hmove ih =>
    obtain ⟨m, hm, hcourse⟩ := ih
    obtain ⟨k, hk, hnext⟩ := hcourse.idle hg hll hx hmove
    exact ⟨k, hk.trans hm, hnext⟩

/-- A nonterminal that is brought to something else uses up a replacement. -/
theorem idles_of_nonterminal (hg : g.WellFormed) (hll : g.table.isLL1)
    (h : g.OnCourse after x n (.nonterminal name :: u)) (hx : x.isTerminal)
    (hmoves : TransGen (Idle g.table mode x) [.nonterminal name] v) :
    ∃ m < n, g.OnCourse after x m (v ++ u) := by
  obtain ⟨w, hfirst, hrest⟩ := TransGen.head'_iff.1 hmoves
  obtain ⟨q, m, rfl, hq, hm⟩ := h.expand hg hll hx
  cases hfirst with
  | expand hcell =>
    obtain rfl := Option.some.inj (hcell.symm.trans hq)
    obtain ⟨k, hk, hcourse⟩ := hm.idles hg hll hx (idles_append (by simpa using hrest) u)
    exact ⟨k, Nat.lt_succ_of_le hk, hcourse⟩
  | noRule _ hcell => simp [hcell] at hq
  | drop _ hs => cases hs

/-- No nonterminal comes up within itself: each time around would leave fewer replacements. -/
theorem not_loop (hg : g.WellFormed) (hll : g.table.isLL1)
    (h : g.OnCourse after x n (.nonterminal name :: u)) (hx : x.isTerminal)
    (hmoves : TransGen (Idle g.table mode x) [.nonterminal name] (.nonterminal name :: v)) :
    False := by
  induction n using Nat.strongRecOn generalizing u with
  | ind n ih =>
    obtain ⟨m, hm, hcourse⟩ := h.idles_of_nonterminal hg hll hx hmoves
    exact ih m hm hcourse

end OnCourse

/-! ## Filled cells -/

theorem isTerminal_of_mem_terminals (h : x ∈ g.terminals) : x.isTerminal := by
  rcases mem_terminals.1 h with rfl | ⟨a, rfl, -⟩ <;> rfl

/-- The alternative in a cell expects the lookahead, by itself or from what can follow its
nonterminal. -/
theorem expects_of_cell? (hg : g.WellFormed) (h : g.table.cell? name x = some p) :
    p ∈ g.alternatives name ∧ x.isTerminal ∧
      g.Expects (fun y => (name, y) ∈ g.followFacts) p x := by
  have hp : p ∈ g.alternatives name := Table.mem_alternatives_of_cell? hg h
  obtain ⟨-, -, -, -, hx⟩ := Table.mem_entries.1 (Table.mem_entries_of_cell? h)
  obtain ⟨hterminal, hmem⟩ := Table.mem_lookaheadsOf.1 hx
  have hx := isTerminal_of_mem_terminals hterminal
  have hset := get?_followSets (mem_names_of_mem_alternatives hp)
  refine ⟨hp, hx, hmem.imp (fun h => ⟨h, ?_⟩) (And.imp_right fun h => ?_)⟩
  · rintro rfl
    cases hx
  · rw [hset] at h
    exact mem_membersOf.1 h

/-- Without conflicts, no nonterminal comes up within itself, in either mode. -/
theorem not_repeats (hg : g.WellFormed) (hll : g.table.isLL1) {mode : Recovery} :
    ¬ Repeats g.table mode x name := by
  rintro ⟨v, hmoves⟩
  obtain ⟨w, hfirst, hrest⟩ := TransGen.head'_iff.1 hmoves
  cases hfirst with
  | expand hcell =>
    obtain ⟨hp, hx, hexpects⟩ := expects_of_cell? hg hcell
    obtain ⟨n, hn⟩ := hexpects.exists_exposes hg hx
    have hcourse : g.Exposes _ x (n + 1) [.nonterminal name] := .nonterminal hp (by simpa using hn)
    exact OnCourse.not_loop hg hll ⟨hcourse, follows_nonterminal g name⟩ hx hmoves
  | noRule =>
    -- Nothing is left to make a move with.
    rcases ReflTransGen.cases_head hrest with h | ⟨_, hmove, -⟩
    · cases h
    · cases hmove
  | drop _ hs => cases hs

end Grammar

/-! ## Runs -/

/-- Without nonterminals that come up within themselves, no run stops at a repetition. -/
theorem Configuration.Grown.not_stopsAtRepetition {t : Table} {mode : Recovery} {c : Configuration}
    (h : ∀ x name, ¬ Repeats t mode x name) (hc : c.Grown t mode) :
    ¬ (c.run t mode).StopsAtRepetition := by
  refine run_induction (P := Grown t mode) (Q := fun r => ¬ r.StopsAtRepetition)
    (fun _ _ hc hmove => hc.transition hmove) (fun c r hc hstop => ?_) hc
  cases hrep : c.repetition? with
  | none => exact hstop.not_stopsAtRepetition hrep
  | some e =>
    obtain ⟨-, name, rest, hstack, hold⟩ := repetition?_eq_some hrep
    obtain ⟨-, -, name, -, -, hrepeats, -⟩ := hc.endless hstack hold
    exact absurd hrepeats (h _ name)

/-- All errors of an outcome, in order. -/
def Outcome.errors : Outcome → List SyntaxError
  | accepted => []
  | rejected e => [e]
  | recovered es => es

theorem Run.mem_errors_outcome {r : Run} {e : SyntaxError} (h : e ∈ r.outcome.errors) :
    e ∈ r.final.errors ∨ r.failure = some e := by
  unfold outcome at h
  split at h <;> grind [Outcome.errors]

namespace Grammar

variable {g : Grammar}

/-- If the table of a grammar from its own sets is without conflicts, then no error of any run is a
left recursion, in either mode and on any input. -/
theorem not_isLeftRecursion_of_isLL1 (hg : g.Attainable) (hll : g.table.isLL1 = true)
    (mode : Recovery) (tokens : List String) :
    ∀ e ∈ (g.table.parse mode tokens).outcome.errors, ¬ e.IsLeftRecursion := by
  intro e he
  rcases Run.mem_errors_outcome he with hmem | hfailure
  · exact Configuration.not_isLeftRecursion_of_mem_errors (by simp [Configuration.initial]) e hmem
  · have hgrown := Configuration.Grown.initial g.table mode tokens
    exact fun hleft => hgrown.not_stopsAtRepetition (fun _ _ => not_repeats hg.wellFormed hll)
      ⟨e, hfailure, hleft⟩

/-- A grammar with a left recursion that derives no word. -/
theorem not_isLeftRecursion_of_isLL1_of_text :
    let g : Grammar :=
      { rules := [⟨"S", [[.terminal "a"], [.terminal "b", .nonterminal "U"]]⟩,
          ⟨"U", [[.nonterminal "U", .terminal "c"]]⟩]
        start := "S" }
    ofText "S -> a | b U; U -> U c" = .ok g ∧ g.table.isLL1 = true ∧
      (g.table.parse .panicMode ["b", "c"]).outcome =
        .recovered [.noRule "U" (.terminal "c"), .incompleteConsumption ["c"]] ∧
      ∀ mode tokens, ∀ e ∈ (g.table.parse mode tokens).outcome.errors, ¬ e.IsLeftRecursion := by
  intro g
  have hg : ofText "S -> a | b U; U -> U c" = .ok g := rfl
  have hll : g.table.isLL1 = true := by
    simp only [g]
    cbv
  refine ⟨hg, hll, ?_, not_isLeftRecursion_of_isLL1 (.ofText hg) hll⟩
  simp only [g]
  cbv

end Grammar

end PredictiveParsing
