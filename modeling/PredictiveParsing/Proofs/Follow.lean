import PredictiveParsing.Proofs.First

/-!
# FOLLOW sets are complete

What a nonterminal can be followed by shows in every form in which it stands: it is what the rest of
the form can begin with, or, where the rest derives the empty word, what comes after the whole form.
The sets of a grammar hold all of this for the nonterminals of one form as soon as they hold it for
those of another from which it is derived.

## Main definitions

* `Grammar.Expects`: the symbols that may come next where a form and something after it are still to
  come.
* `Grammar.Follows`: the `FOLLOW` sets hold what comes after each nonterminal of a form.

## Main statements

* `Grammar.followFacts_induction`: the sets are the least ones that agree with the alternatives.
* `Grammar.Follows.expand`: a form that is derived inherits the property.
-/

namespace PredictiveParsing

variable {name : String} {x : Symbol} {u v : List Symbol}

theorem mem_sites_append {site : String × List Symbol} :
    site ∈ sites (u ++ v) ↔
      (∃ rest, (site.1, rest) ∈ sites u ∧ site.2 = rest ++ v) ∨ site ∈ sites v := by
  induction u with
  | nil => simp [sites]
  | cons s u ih =>
    cases s with
    | nonterminal name =>
      obtain ⟨other, rest⟩ := site
      simp only [List.cons_append, sites, List.mem_cons, ih, Prod.mk.injEq]
      grind
    | _ => exact ih

theorem mem_sites {site : String × List Symbol} :
    site ∈ sites u ↔ ∃ before, u = before ++ .nonterminal site.1 :: site.2 := by
  obtain ⟨name, rest⟩ := site
  induction u with
  | nil => simp [sites]
  | cons s u ih =>
    constructor
    · intro h
      cases s with
      | nonterminal other =>
        rcases List.mem_cons.1 h with h | h
        · cases h
          exact ⟨[], rfl⟩
        · obtain ⟨before, rfl⟩ := ih.1 h
          exact ⟨_ :: before, rfl⟩
      | _ =>
        obtain ⟨before, rfl⟩ := ih.1 h
        exact ⟨_ :: before, rfl⟩
    · rintro ⟨before, h⟩
      cases before with
      | nil =>
        cases h
        exact List.mem_cons_self
      | cons _ before =>
        cases h
        have := ih.2 ⟨before, rfl⟩
        cases s <;> grind [sites]

namespace Grammar

variable {g : Grammar} {after : Symbol → Prop}

/-- The symbols that may come next where `u` is still to come and, behind it, one of `after`. -/
def Expects (g : Grammar) (after : Symbol → Prop) (u : List Symbol) (x : Symbol) : Prop :=
  (x ∈ g.firstSets.ofSequence u ∧ x ≠ .epsilon) ∨ (.epsilon ∈ g.firstSets.ofSequence u ∧ after x)

theorem Expects.mono {after' : Symbol → Prop} (h : g.Expects after u x)
    (hafter : ∀ y, after y → after' y) : g.Expects after' u x :=
  h.imp_right (And.imp_right (hafter x))

theorem expects_nil : g.Expects after [] x ↔ after x := by
  simp +contextual [Expects, FirstSets.ofSequence, firstOf]

/-- What comes after the first part of a form is what the second part expects. -/
theorem expects_append :
    g.Expects after (u ++ v) x ↔ g.Expects (g.Expects after v) u x := by
  simp only [Expects, FirstSets.ofSequence, mem_firstOf_append (u := u)]
  grind

theorem expects_cons_epsilon : g.Expects after (.epsilon :: u) x ↔ g.Expects after u x := Iff.rfl

theorem expects_cons_terminal {a : String} :
    g.Expects after (.terminal a :: u) x ↔ x = .terminal a := by
  simp +contextual [Expects, FirstSets.ofSequence, firstOf]

/-- What an alternative expects, its nonterminal expects. -/
theorem Expects.nonterminal {p : Alternative} (h : g.Expects after (p ++ u) x)
    (hp : p ∈ g.alternatives name) : g.Expects after (.nonterminal name :: u) x := by
  have hsub := firstOf_subset_of_derives (derives_cons hp u)
  exact h.imp (And.imp_left (@hsub x)) (And.imp_left (@hsub .epsilon))

/-! ## The rules of FOLLOW -/

/-- The facts about `FOLLOW` of the nonterminals of a grammar from its own sets. -/
abbrev followFacts (g : Grammar) : List Fact := g.firstSets.followSets.facts

theorem mem_followRules {rule : List Fact → List Fact} :
    rule ∈ g.firstSets.followRules ↔ ∃ r ∈ g.rules, ∃ p ∈ r.alternatives, ∃ site ∈ sites p,
      followRule g.firstSets r.name site = rule := by
  simp [FirstSets.followRules, firstSets]

theorem mem_followRule {first : FirstSets} {site : String × List Symbol} {facts : List Fact}
    {fact : Fact} :
    fact ∈ followRule first name site facts ↔ fact.1 = site.1 ∧
      ((fact.2 ∈ first.ofSequence site.2 ∧ fact.2 ≠ .epsilon) ∨
        (.epsilon ∈ first.ofSequence site.2 ∧ (name, fact.2) ∈ facts)) := by
  obtain ⟨other, s⟩ := fact
  simp only [followRule, List.mem_map, List.mem_append, List.mem_filter, Prod.mk.injEq,
    ← mem_membersOf]
  by_cases h : .epsilon ∈ first.ofSequence site.2 <;> simp [h] <;> grind

theorem endFacts_subset (hg : g.WellFormed) : g.firstSets.endFacts ⊆ g.factDomain := by
  intro fact hfact
  simp only [FirstSets.endFacts, firstSets, declares_iff, hg.start_mem, if_true,
    List.mem_singleton] at hfact
  exact hfact ▸ mem_factDomain.2 ⟨hg.start_mem, mem_lookaheads.2 ⟨rfl, .inr (.inr rfl)⟩⟩

/-- The places in the alternatives say nothing about symbols that are not in the grammar. -/
theorem staysIn_followRules (hg : g.WellFormed) : StaysIn g.factDomain g.firstSets.followRules := by
  intro rule hrule known hknown fact hfact
  obtain ⟨r, hr, p, hp, site, hsite, rfl⟩ := mem_followRules.1 hrule
  obtain ⟨hname, hmem⟩ := mem_followRule.1 hfact
  obtain ⟨before, rfl⟩ := mem_sites.1 hsite
  have hocc : ∀ s ∈ site.2, s ∈ g.occurrences := fun s hs =>
    mem_occurrences.2 ⟨r, hr, _, hp, List.mem_append_right _ (List.mem_cons_of_mem _ hs)⟩
  have hdeclared : site.1 ∈ g.names := hg.admits (.nonterminal site.1)
    (mem_occurrences.2 ⟨r, hr, _, hp, by simp⟩)
  refine mem_factDomain.2 ⟨hname ▸ hdeclared, ?_⟩
  rcases hmem with ⟨hmem, -⟩ | ⟨-, hmem⟩
  · exact mem_lookaheads_of_mem_firstOf (facts_firstSets_subset g) hocc hmem
  · exact (mem_factDomain.1 (hknown hmem)).2

/-- The end marker comes after the start symbol. -/
theorem endMarker_mem_followFacts (hg : g.WellFormed) : (g.start, .endMarker) ∈ g.followFacts :=
  subset_saturate _ _ _ (by simp [FirstSets.endFacts, firstSets, hg.start_mem])

/-- What comes after a nonterminal in an alternative is in its set. -/
theorem mem_followFacts (hg : g.WellFormed) {p : Alternative} (hp : p ∈ g.alternatives name)
    {other : String} {rest : List Symbol} (hsite : (other, rest) ∈ sites p)
    (h : g.Expects (fun y => (name, y) ∈ g.followFacts) rest x) :
    (other, x) ∈ g.followFacts := by
  obtain ⟨r, hr, rfl, hpr⟩ := exists_rule_of_mem_alternatives hp
  exact rule_saturate_subset (staysIn_followRules hg) (endFacts_subset hg)
    (mem_followRules.2 ⟨r, hr, p, hpr, _, hsite, rfl⟩) (mem_followRule.2 ⟨rfl, h⟩)

/-- The sets are the least ones that agree with the alternatives and have the end marker after the
start symbol. -/
theorem followFacts_induction (hg : g.WellFormed) {P : String → Symbol → Prop}
    (hstart : P g.start .endMarker)
    (hstep : ∀ outer, ∀ p ∈ g.alternatives outer, ∀ site ∈ sites p, ∀ x,
      g.Expects (P outer) site.2 x → P site.1 x) :
    ∀ fact ∈ g.followFacts, P fact.1 fact.2 := by
  refine saturate_induction (fun fact hfact => ?_) fun rule hrule known hknown fact hfact => ?_
  · simp only [FirstSets.endFacts, firstSets, declares_iff, hg.start_mem, if_true,
      List.mem_singleton] at hfact
    exact hfact ▸ hstart
  · obtain ⟨r, hr, p, hp, site, hsite, rfl⟩ := mem_followRules.1 hrule
    obtain ⟨hname, hmem⟩ := mem_followRule.1 hfact
    rw [← hg.alternatives_eq hr] at hp
    rw [hname]
    exact hstep r.name p hp site hsite _ (hmem.imp_right (And.imp_right (hknown _)))

/-! ## FOLLOW within a form -/

/-- The `FOLLOW` sets hold what comes after each nonterminal of `u` where one of `after` comes
behind `u`. -/
def Follows (g : Grammar) (after : Symbol → Prop) (u : List Symbol) : Prop :=
  ∀ site ∈ sites u, ∀ x, g.Expects after site.2 x → (site.1, x) ∈ g.followFacts

theorem Follows.tail {s : Symbol} (h : g.Follows after (s :: u)) : g.Follows after u := by
  intro site hsite
  apply h site
  cases s with
  | nonterminal name => exact List.mem_cons_of_mem _ hsite
  | _ => exact hsite

theorem Follows.head (h : g.Follows after (.nonterminal name :: u)) (hx : g.Expects after u x) :
    (name, x) ∈ g.followFacts := h (name, u) List.mem_cons_self x hx

/-- The sets hold for the nonterminals of an alternative what they hold for its nonterminal. -/
theorem Follows.expand (hg : g.WellFormed) (h : g.Follows after (.nonterminal name :: u))
    {p : Alternative} (hp : p ∈ g.alternatives name) : g.Follows after (p ++ u) := by
  intro site hsite x hx
  rcases mem_sites_append.1 hsite with ⟨rest, hrest, hsplit⟩ | hsite
  · rw [hsplit, expects_append] at hx
    exact mem_followFacts hg hp hrest (hx.imp_right fun ⟨hε, hu⟩ => ⟨hε, h.head hu⟩)
  · exact h.tail site hsite x hx

/-- The end marker comes behind the start symbol. -/
theorem follows_start (hg : g.WellFormed) :
    g.Follows (· = .endMarker) [.nonterminal g.start] := by
  intro site hsite x hx
  obtain rfl := List.mem_singleton.1 hsite
  rw [expects_nil.1 hx]
  exact endMarker_mem_followFacts hg

end Grammar

end PredictiveParsing
