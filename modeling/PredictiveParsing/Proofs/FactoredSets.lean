import PredictiveParsing.Proofs.FollowExact

/-!
# Sets of left-factored grammars

The sets of a grammar depend on all alternatives, also on those that derive no word or cannot be
reached. So it is not enough that left factoring keeps the words. In one step a group of
alternatives makes way for what it shares with the new nonterminal behind it. With the beginnings of
all remainders for the new nonterminal, the old `FIRST` sets agree with the new alternatives, and
what comes after the old nonterminal can stand for what comes after the new one. As the sets of a
grammar are the least ones that agree with its alternatives, no set becomes larger. For the same
reason none becomes smaller, since the new sets agree with the old alternatives.

## Main definitions

* `Grammar.SameSets`: a grammar has the nonterminals of another one, with the same sets.
* `Grammar.Extracts.firstFacts`: the old `FIRST` sets with one for the new nonterminal.

## Main statements

* `Grammar.Extracts.sameSets`: factoring out a group keeps the sets.
* `Grammar.sets_leftFactor`: left factoring keeps the sets and the terminals.
-/

namespace PredictiveParsing

/-! ## Remainders -/

section Remainder

variable {shared rest : List Symbol} {facts : List Fact}

/-- A remainder begins like what is left of the alternative. -/
theorem firstOf_remainder :
    firstOf facts (Alternative.remainder shared.length (shared ++ rest)) = firstOf facts rest := by
  rw [Alternative.remainder_append]
  split
  next h => simp [h, firstOf]
  next => rfl

/-- What is not in a sequence is at none of its places. -/
theorem not_mem_of_mem_sites {fresh : String} {u : List Symbol} {site : String × List Symbol}
    (hu : .nonterminal fresh ∉ u) (hsite : site ∈ sites u) :
    site.1 ≠ fresh ∧ .nonterminal fresh ∉ site.2 := by
  obtain ⟨before, rfl⟩ := mem_sites.1 hsite
  simp only [List.mem_append, List.mem_cons, not_or, Symbol.nonterminal.injEq] at hu
  exact ⟨Ne.symm hu.2.1, hu.2.2⟩

theorem sites_remainder :
    sites (Alternative.remainder shared.length (shared ++ rest)) = sites rest := by
  rw [Alternative.remainder_append]
  split
  next h => simp [h, sites]
  next => rfl

theorem terminal_mem_remainder {a : String} :
    .terminal a ∈ Alternative.remainder shared.length (shared ++ rest) ↔ .terminal a ∈ rest := by
  rw [Alternative.remainder_append]
  split <;> simp_all

end Remainder

namespace Grammar

variable {f g h : Grammar} {name fresh other : String} {x : Symbol} {after : Symbol → Prop}
  {u rest : List Symbol} {p : Alternative} {members kept : List Alternative}

/-! ## Grammars with the same sets -/

/-- `h` has the nonterminals of `g`, with the same sets, and the terminals of `g`. -/
structure SameSets (h g : Grammar) : Prop where
  names : g.names ⊆ h.names
  first : ∀ name ∈ g.names, ∀ x, (name, x) ∈ h.firstSets.facts ↔ (name, x) ∈ g.firstSets.facts
  follow : ∀ name ∈ g.names, ∀ x, (name, x) ∈ h.followFacts ↔ (name, x) ∈ g.followFacts
  terminals : ∀ a, .terminal a ∈ h.occurrences ↔ .terminal a ∈ g.occurrences

theorem SameSets.refl (g : Grammar) : g.SameSets g :=
  ⟨List.Subset.refl _, fun _ _ _ => .rfl, fun _ _ _ => .rfl, fun _ => .rfl⟩

theorem SameSets.trans (hf : f.SameSets h) (hg : h.SameSets g) : f.SameSets g where
  names := List.Subset.trans hg.names hf.names
  first name hname x := (hf.first name (hg.names hname) x).trans (hg.first name hname x)
  follow name hname x := (hf.follow name (hg.names hname) x).trans (hg.follow name hname x)
  terminals a := (hf.terminals a).trans (hg.terminals a)

theorem Expects.of_subset (hfacts : g.firstSets.facts ⊆ h.firstSets.facts)
    (hx : g.Expects after u x) : h.Expects after u x := by
  have hsub : firstOf g.firstSets.facts u ⊆ firstOf h.firstSets.facts u :=
    firstOf_subset fun _ _ _ hfact => hfacts hfact
  exact hx.imp (And.imp_left (@hsub x)) (And.imp_left (@hsub .epsilon))

/-! ### More alternatives -/

theorem facts_firstSets_subset_of_alternatives (hg : g.WellFormed)
    (hsub : ∀ name, ∀ p ∈ g.alternatives name, p ∈ h.alternatives name) :
    g.firstSets.facts ⊆ h.firstSets.facts :=
  facts_firstSets_subset_of_closed hg fun name p hp => firstOf_alternative_subset (hsub name p hp)

theorem followFacts_subset_of_alternatives (hg : g.WellFormed) (hh : h.WellFormed)
    (hstart : h.start = g.start)
    (hsub : ∀ name, ∀ p ∈ g.alternatives name, p ∈ h.alternatives name) :
    g.followFacts ⊆ h.followFacts := by
  have hfacts := facts_firstSets_subset_of_alternatives hg hsub
  intro fact
  refine followFacts_induction hg (P := fun name x => (name, x) ∈ h.followFacts) ?_ ?_ fact
  · exact hstart ▸ endMarker_mem_followFacts hh
  · intro outer p hp site hsite x hx
    exact mem_followFacts hh (hsub outer p hp) hsite (hx.of_subset hfacts)

/-- The order of the alternatives does not count. -/
theorem SameSets.of_alternatives (hg : g.WellFormed) (hh : h.WellFormed)
    (hstart : h.start = g.start) (hnames : h.names = g.names)
    (halternatives : ∀ name p, p ∈ h.alternatives name ↔ p ∈ g.alternatives name) :
    h.SameSets g := by
  have hsub := fun name p => (halternatives name p).1
  have hsub' := fun name p => (halternatives name p).2
  refine ⟨hnames ▸ List.Subset.refl _, fun name _ x => ⟨fun hx => ?_, fun hx => ?_⟩,
    fun name _ x => ⟨fun hx => ?_, fun hx => ?_⟩, fun a => ?_⟩
  · exact facts_firstSets_subset_of_alternatives hh hsub hx
  · exact facts_firstSets_subset_of_alternatives hg hsub' hx
  · exact followFacts_subset_of_alternatives hh hg hstart.symm hsub hx
  · exact followFacts_subset_of_alternatives hg hh hstart hsub' hx
  · simp only [hh.mem_occurrences_iff, hg.mem_occurrences_iff, halternatives]

/-! ## One group -/

namespace Extracts

/-- The old `FIRST` sets, with the beginnings of the remainders for the new nonterminal. -/
def firstFacts (g : Grammar) (fresh : String) (members : List Alternative) : List Fact :=
  g.firstSets.facts ++ members.flatMap fun p =>
    firstRule fresh (p.remainder (sharedPrefix members).length) g.firstSets.facts

section One

variable (hx : h.Extracts g name fresh members kept)
include hx

theorem fresh_not_mem_member (hmember : sharedPrefix members ++ rest ∈ members) :
    .nonterminal fresh ∉ sharedPrefix members ∧ .nonterminal fresh ∉ rest := by
  have hnot := hx.not_mem ((hx.mem_old _).2 (.inr hmember))
  rwa [List.mem_append, not_or] at hnot

theorem mem_fresh :
    p ∈ h.alternatives fresh ↔ ∃ rest, sharedPrefix members ++ rest ∈ members ∧
      p = Alternative.remainder (sharedPrefix members).length (sharedPrefix members ++ rest) := by
  rw [hx.rest, List.mem_map]
  constructor
  · rintro ⟨q, hq, rfl⟩
    obtain ⟨rest, hrest⟩ := sharedPrefix_begins hq
    exact ⟨rest, by rwa [hrest], by rw [hrest]⟩
  · rintro ⟨rest, hmember, rfl⟩
    exact ⟨_, hmember, rfl⟩

/-- An alternative is one of the new grammar as well, or it is a member of the group. -/
theorem mem_or_exists_rest (hp : p ∈ g.alternatives other) :
    p ∈ h.alternatives other ∨
      other = name ∧ ∃ rest, p = sharedPrefix members ++ rest ∧ p ∈ members := by
  by_cases hname : other = name
  · subst hname
    rcases (hx.mem_old p).1 hp with hkept | hmember
    · exact .inl ((hx.mem_new p).2 (.inl hkept))
    · obtain ⟨rest, hrest⟩ := sharedPrefix_begins hmember
      exact .inr ⟨rfl, rest, hrest.symm, hmember⟩
  · have hfresh := hx.ne_fresh (mem_names_of_mem_alternatives hp)
    exact .inl (by rwa [hx.other other hname hfresh])

/-- A new alternative is an old one, or what the group shares with the new nonterminal behind it, or
a remainder. -/
theorem mem_cases (hp : p ∈ h.alternatives other) :
    (p ∈ g.alternatives other ∧ other ≠ fresh) ∨
      (other = name ∧ p = sharedPrefix members ++ [.nonterminal fresh]) ∨
      (other = fresh ∧ ∃ rest, sharedPrefix members ++ rest ∈ members ∧
        p = Alternative.remainder (sharedPrefix members).length
          (sharedPrefix members ++ rest)) := by
  by_cases hfresh : other = fresh
  · subst hfresh
    exact .inr (.inr ⟨rfl, hx.mem_fresh.1 hp⟩)
  by_cases hname : other = name
  · subst hname
    rcases (hx.mem_new p).1 hp with hkept | hshared
    · exact .inl ⟨(hx.mem_old p).2 (.inl hkept), hfresh⟩
    · exact .inr (.inl ⟨rfl, hshared⟩)
  · rw [hx.other other hname hfresh] at hp
    exact .inl ⟨hp, hfresh⟩

theorem ne_fresh_of_members (hne : members ≠ []) : name ≠ fresh := by
  obtain ⟨q, hq⟩ := List.exists_mem_of_ne_nil members hne
  exact hx.ne_fresh (mem_names_of_mem_alternatives ((hx.mem_old q).2 (.inr hq)))

theorem shared_mem : sharedPrefix members ++ [.nonterminal fresh] ∈ h.alternatives name :=
  (hx.mem_new _).2 (.inr rfl)

end One

/-! ### FIRST -/

theorem mem_firstFacts :
    (other, x) ∈ firstFacts g fresh members ↔ (other, x) ∈ g.firstSets.facts ∨
      other = fresh ∧ ∃ rest, sharedPrefix members ++ rest ∈ members ∧
        x ∈ firstOf g.firstSets.facts rest := by
  simp only [firstFacts, List.mem_append, List.mem_flatMap, mem_firstRule]
  refine or_congr_right ⟨?_, ?_⟩
  · rintro ⟨q, hq, hfresh, hmem⟩
    obtain ⟨rest, hrest⟩ := sharedPrefix_begins hq
    rw [← hrest, firstOf_remainder] at hmem
    exact ⟨hfresh, rest, by rwa [hrest], hmem⟩
  · rintro ⟨hfresh, rest, hmember, hmem⟩
    exact ⟨_, hmember, hfresh, by rwa [firstOf_remainder]⟩

/-- Nothing changes for a sequence without the new nonterminal. -/
theorem mem_firstOf_firstFacts (hu : .nonterminal fresh ∉ u) :
    x ∈ firstOf (firstFacts g fresh members) u ↔ x ∈ firstOf g.firstSets.facts u := by
  constructor
  · refine fun hmem => firstOf_subset (fun other hother y hy => ?_) hmem
    refine (mem_firstFacts.1 hy).resolve_right fun hfresh => hu ?_
    rwa [← hfresh.1]
  · exact fun hmem => firstOf_subset (fun other _ y hy => mem_firstFacts.2 (.inl hy)) hmem

section First

variable (hx : h.Extracts g name fresh members kept)
include hx

/-- A sequence with the new nonterminal behind it begins like one with what is left of a member. -/
theorem exists_rest_of_mem_firstOf (hne : members ≠ []) (hu : .nonterminal fresh ∉ u)
    (hmem : x ∈ firstOf (firstFacts g fresh members) (u ++ [.nonterminal fresh])) :
    ∃ rest, sharedPrefix members ++ rest ∈ members ∧ x ∈ firstOf g.firstSets.facts (u ++ rest) := by
  simp only [mem_firstOf_append (u := u), mem_firstOf_firstFacts hu, mem_firstOf_nonterminal]
    at hmem ⊢
  rcases hmem with hmem | ⟨hε, hmem⟩
  · obtain ⟨q, hq⟩ := List.exists_mem_of_ne_nil members hne
    obtain ⟨rest, hrest⟩ := sharedPrefix_begins hq
    exact ⟨rest, by rwa [hrest], .inl hmem⟩
  · rcases mem_firstFacts.1 hmem with hmem | ⟨-, rest, hmember, hmem⟩
    · exact absurd (mem_factDomain.1 (facts_firstSets_subset g hmem)).1 hx.fresh_not_mem
    · exact ⟨rest, hmember, .inr ⟨hε, hmem⟩⟩

theorem facts_subset_firstFacts (hh : h.WellFormed) (hne : members ≠ []) :
    h.firstSets.facts ⊆ firstFacts g fresh members := by
  have hold : ∀ {outer}, ∀ q ∈ g.alternatives outer, ∀ y ∈ firstOf g.firstSets.facts q,
      (outer, y) ∈ firstFacts g fresh members := fun q hq y hy =>
    mem_firstFacts.2 (.inl (mem_firstOf_nonterminal.1 (firstOf_alternative_subset hq hy)))
  refine facts_firstSets_subset_of_closed hh fun outer p hp y hy => ?_
  rw [mem_firstOf_nonterminal]
  rcases hx.mem_cases hp with ⟨hp, -⟩ | ⟨rfl, rfl⟩ | ⟨rfl, rest, hmember, rfl⟩
  · exact hold p hp y ((mem_firstOf_firstFacts (hx.not_mem hp)).1 hy)
  · obtain ⟨rest, hmember, hy⟩ :=
      hx.exists_rest_of_mem_firstOf hne (hx.fresh_not_mem_shared hne) hy
    exact hold _ ((hx.mem_old _).2 (.inr hmember)) y hy
  · rw [firstOf_remainder, mem_firstOf_firstFacts (hx.fresh_not_mem_member hmember).2] at hy
    exact mem_firstFacts.2 (.inr ⟨rfl, rest, hmember, hy⟩)

/-- What is left of a member begins like the new nonterminal. -/
theorem firstOf_rest_subset (hmember : sharedPrefix members ++ rest ∈ members) :
    firstOf h.firstSets.facts rest ⊆ firstOf h.firstSets.facts [.nonterminal fresh] := by
  have hsub := firstOf_alternative_subset (hx.mem_fresh.2 ⟨rest, hmember, rfl⟩)
  rwa [firstOf_remainder] at hsub

theorem facts_subset (hg : g.WellFormed) : g.firstSets.facts ⊆ h.firstSets.facts := by
  refine facts_firstSets_subset_of_closed hg fun outer p hp => ?_
  rcases hx.mem_or_exists_rest hp with hp | ⟨rfl, rest, rfl, hmember⟩
  · exact firstOf_alternative_subset hp
  · have hpart := firstOf_subset_of_part (u := sharedPrefix members) (v := [])
      (hx.firstOf_rest_subset hmember)
    simp only [List.append_nil] at hpart
    exact List.Subset.trans hpart (firstOf_alternative_subset hx.shared_mem)

variable (hh : h.WellFormed) (hne : members ≠ [])
include hh hne

/-- A sequence without the new nonterminal begins as before. -/
theorem mem_ofSequence_iff (hg : g.WellFormed) (hu : .nonterminal fresh ∉ u) :
    x ∈ h.firstSets.ofSequence u ↔ x ∈ g.firstSets.ofSequence u := by
  constructor
  · intro hmem
    have hfacts := hx.facts_subset_firstFacts hh hne
    exact (mem_firstOf_firstFacts hu).1 (firstOf_subset (fun _ _ _ hfact => hfacts hfact) hmem)
  · exact fun hmem => firstOf_subset (fun _ _ _ hfact => hx.facts_subset hg hfact) hmem

/-! ### FOLLOW -/

theorem expects_iff (hg : g.WellFormed) (hu : .nonterminal fresh ∉ u) :
    h.Expects after u x ↔ g.Expects after u x := by
  simp only [Expects, hx.mem_ofSequence_iff hh hne hg hu]

/-- A sequence with the new nonterminal behind it expects what one with what is left of a member
expects. -/
theorem exists_rest_of_expects (hu : .nonterminal fresh ∉ u)
    (hexpects : h.Expects after (u ++ [.nonterminal fresh]) x) :
    ∃ rest, sharedPrefix members ++ rest ∈ members ∧ g.Expects after (u ++ rest) x := by
  have hrest : ∀ {y}, y ∈ h.firstSets.ofSequence (u ++ [.nonterminal fresh]) →
      ∃ rest, sharedPrefix members ++ rest ∈ members ∧ y ∈ g.firstSets.ofSequence (u ++ rest) := by
    intro y hy
    refine hx.exists_rest_of_mem_firstOf hne hu (firstOf_subset (fun _ _ _ hfact => ?_) hy)
    exact hx.facts_subset_firstFacts hh hne hfact
  rcases hexpects with ⟨hmem, hne⟩ | ⟨hε, hafter⟩
  · obtain ⟨rest, hmember, hmem⟩ := hrest hmem
    exact ⟨rest, hmember, .inl ⟨hmem, hne⟩⟩
  · obtain ⟨rest, hmember, hε⟩ := hrest hε
    exact ⟨rest, hmember, .inr ⟨hε, hafter⟩⟩

/-- What comes after a nonterminal came after it before. What comes after the new one came after the
nonterminal of the group. -/
theorem followFacts_subset (hg : g.WellFormed) :
    ∀ fact ∈ h.followFacts, (Function.update id fresh name fact.1, fact.2) ∈ g.followFacts := by
  have hold : ∀ {other}, other ≠ fresh → Function.update id fresh name other = other :=
    fun hother => Function.update_of_ne hother ..
  refine followFacts_induction hh
    (P := fun other x => (Function.update id fresh name other, x) ∈ g.followFacts) ?_ ?_
  · rw [hx.start, hold (hx.ne_fresh hg.start_mem)]
    exact endMarker_mem_followFacts hg
  intro outer p hp site hsite x hexpects
  rcases hx.mem_cases hp with ⟨hp, houter⟩ | ⟨rfl, rfl⟩ | ⟨rfl, rest, hmember, rfl⟩
  · obtain ⟨hname, hbehind⟩ := not_mem_of_mem_sites (hx.not_mem hp) hsite
    rw [hold houter, hx.expects_iff hh hne hg hbehind] at hexpects
    rw [hold hname]
    exact mem_followFacts hg hp hsite hexpects
  · rw [hold (hx.ne_fresh_of_members hne)] at hexpects
    rcases mem_sites_append.1 hsite with ⟨behind, hbehind, hsplit⟩ | hsite
    · obtain ⟨hother, hfree⟩ := not_mem_of_mem_sites (hx.fresh_not_mem_shared hne) hbehind
      rw [hsplit] at hexpects
      obtain ⟨rest, hmember, hexpects⟩ := hx.exists_rest_of_expects hh hne hfree hexpects
      have hplace : (site.1, behind ++ rest) ∈ sites (sharedPrefix members ++ rest) :=
        mem_sites_append.2 (.inl ⟨behind, hbehind, rfl⟩)
      rw [hold hother]
      exact mem_followFacts hg ((hx.mem_old _).2 (.inr hmember)) hplace hexpects
    · obtain rfl := List.mem_singleton.1 hsite
      rw [Function.update_self]
      exact expects_nil.1 hexpects
  · rw [sites_remainder] at hsite
    obtain ⟨hname, hbehind⟩ := not_mem_of_mem_sites (hx.fresh_not_mem_member hmember).2 hsite
    rw [Function.update_self, hx.expects_iff hh hne hg hbehind] at hexpects
    rw [hold hname]
    exact mem_followFacts hg ((hx.mem_old _).2 (.inr hmember))
      (mem_sites_append.2 (.inr hsite)) hexpects

omit hne in
theorem subset_followFacts (hg : g.WellFormed) : g.followFacts ⊆ h.followFacts := by
  intro fact
  refine followFacts_induction hg (P := fun other x => (other, x) ∈ h.followFacts) ?_ ?_ fact
  · exact hx.start ▸ endMarker_mem_followFacts hh
  intro outer p hp site hsite x hexpects
  replace hexpects := hexpects.of_subset (hx.facts_subset hg)
  rcases hx.mem_or_exists_rest hp with hp | ⟨rfl, rest, rfl, hmember⟩
  · exact mem_followFacts hh hp hsite hexpects
  rcases mem_sites_append.1 hsite with ⟨behind, hbehind, hsplit⟩ | hsite
  · -- The new nonterminal stands where the rest of the member stood.
    have hrest := hx.firstOf_rest_subset hmember
    have hplace : (site.1, behind ++ [.nonterminal fresh])
        ∈ sites (sharedPrefix members ++ [.nonterminal fresh]) :=
      mem_sites_append.2 (.inl ⟨behind, hbehind, rfl⟩)
    rw [hsplit, expects_append] at hexpects
    refine mem_followFacts hh hx.shared_mem hplace ?_
    refine expects_append.2 (hexpects.mono fun y hy => ?_)
    exact hy.imp (And.imp_left (@hrest y)) (And.imp_left (@hrest .epsilon))
  · -- The rest of the member is an alternative of the new nonterminal.
    refine mem_followFacts hh (hx.mem_fresh.2 ⟨rest, hmember, rfl⟩) (sites_remainder ▸ hsite) ?_
    refine hexpects.mono fun y hy => ?_
    exact mem_followFacts hh hx.shared_mem
      (mem_sites_append.2 (.inr List.mem_cons_self)) (expects_nil.2 hy)

theorem terminal_mem_occurrences_iff (hg : g.WellFormed) {a : String} :
    .terminal a ∈ h.occurrences ↔ .terminal a ∈ g.occurrences := by
  simp only [hh.mem_occurrences_iff, hg.mem_occurrences_iff]
  constructor
  · rintro ⟨other, p, hp, ha⟩
    rcases hx.mem_cases hp with ⟨hp, -⟩ | ⟨rfl, rfl⟩ | ⟨rfl, rest, hmember, rfl⟩
    · exact ⟨other, p, hp, ha⟩
    · obtain ⟨q, hq⟩ := List.exists_mem_of_ne_nil members hne
      refine ⟨other, q, (hx.mem_old q).2 (.inr hq), (sharedPrefix_begins hq).subset ?_⟩
      simpa using ha
    · refine ⟨name, _, (hx.mem_old _).2 (.inr hmember), List.mem_append_right _ ?_⟩
      exact terminal_mem_remainder.1 ha
  · rintro ⟨other, p, hp, ha⟩
    rcases hx.mem_or_exists_rest hp with hp | ⟨rfl, rest, rfl, hmember⟩
    · exact ⟨other, p, hp, ha⟩
    rcases List.mem_append.1 ha with ha | ha
    · exact ⟨other, _, hx.shared_mem, List.mem_append_left _ ha⟩
    · exact ⟨fresh, _, hx.mem_fresh.2 ⟨rest, hmember, rfl⟩, terminal_mem_remainder.2 ha⟩

/-- Factoring out a group keeps the sets. -/
theorem sameSets (hg : g.WellFormed) : h.SameSets g where
  names := hx.names
  first other hother x := by
    have hfresh : .nonterminal fresh ∉ [Symbol.nonterminal other] := by
      simpa using Ne.symm (hx.ne_fresh hother)
    have hiff := hx.mem_ofSequence_iff hh hne hg hfresh (x := x)
    simpa only [FirstSets.ofSequence, mem_firstOf_nonterminal] using hiff
  follow other hother x := by
    refine ⟨fun hmem => ?_, fun hmem => hx.subset_followFacts hh hg hmem⟩
    have hfact := hx.followFacts_subset hh hne hg _ hmem
    rwa [Function.update_of_ne (hx.ne_fresh hother)] at hfact
  terminals _ := hx.terminal_mem_occurrences_iff hh hne hg

end First

end Extracts

/-! ## All steps -/

theorem FactorStep.sameSets (hstep : g.FactorStep h) : h.SameSets g := by
  cases hstep with
  | reorder hg hh hstart hnames halternatives =>
    exact .of_alternatives hg hh hstart hnames halternatives
  | extract hg hh hne hx => exact hx.sameSets hh hne hg

theorem FactorSteps.sameSets (hsteps : g.FactorSteps h) : h.SameSets g := by
  induction hsteps with
  | refl => exact .refl g
  | tail _ hstep ih => exact hstep.sameSets.trans ih

/-- Left factoring keeps the `FIRST` and `FOLLOW` sets of all nonterminals, and the terminals. The
sets may list their members in another order. -/
theorem sets_leftFactor (hg : g.Attainable) :
    (∀ name ∈ g.names,
      (∃ first first', g.firstSets.get? name = some first ∧
        g.leftFactor.firstSets.get? name = some first' ∧ ∀ x, x ∈ first' ↔ x ∈ first) ∧
      g.leftFactor.firstSets.isNullable name = g.firstSets.isNullable name ∧
      ∃ follow follow', g.firstSets.followSets.get? name = some follow ∧
        g.leftFactor.firstSets.followSets.get? name = some follow' ∧
        ∀ x, x ∈ follow' ↔ x ∈ follow) ∧
    ∀ s, s ∈ g.leftFactor.terminals ↔ s ∈ g.terminals := by
  have hsame := (factorSteps_leftFactor hg.wellFormed).sameSets
  refine ⟨fun name hname => ⟨?_, ?_, ?_⟩, fun s => ?_⟩
  · refine ⟨_, _, get?_firstSets hname, get?_firstSets (hsame.names hname), fun x => ?_⟩
    rw [mem_membersOf, mem_membersOf, hsame.first name hname]
  · have hnullable := hsame.first name hname .epsilon
    simp only [← mem_firstOf_nonterminal] at hnullable
    exact Bool.eq_iff_iff.2 (isNullable_firstSets.trans (hnullable.trans isNullable_firstSets.symm))
  · refine ⟨_, _, get?_followSets_eq_some.2 ⟨hname, rfl⟩,
      get?_followSets_eq_some.2 ⟨hsame.names hname, rfl⟩, fun x => ?_⟩
    rw [mem_membersOf, mem_membersOf, hsame.follow name hname]
  · rw [hg.leftFactor.wellFormed.mem_terminals_iff, hg.wellFormed.mem_terminals_iff]
    simp only [hsame.terminals]

/-- A grammar with a nonterminal that derives no word, one without alternatives and one that cannot
be reached. In the new grammar two new nonterminals are involved in what comes after `A`. -/
theorem sets_leftFactor_of_text :
    let g : Grammar :=
      { rules := [⟨"S", [[.terminal "a", .nonterminal "A", .terminal "b"],
            [.terminal "a", .nonterminal "A", .terminal "c"], [.terminal "a", .nonterminal "B"]]⟩,
          ⟨"A", [[.terminal "d"], [.epsilon]]⟩, ⟨"B", [[.nonterminal "B", .terminal "e"]]⟩,
          ⟨"C", []⟩,
          ⟨"D", [[.terminal "f", .nonterminal "C"],
            [.terminal "f", .nonterminal "D", .nonterminal "S"]]⟩]
        start := "S" }
    ofText "S -> a A b | a A c | a B; A -> d | ε; B -> B e; C ->; D -> f C | f D S" = .ok g ∧
      g.leftFactor.names = ["S", "S'", "S''", "A", "B", "C", "D", "D'"] ∧
      (∃ follow, g.leftFactor.firstSets.followSets.get? "A" = some follow ∧
        ∀ x, x ∈ follow ↔ x = .terminal "b" ∨ x = .terminal "c") ∧
      ∃ follow, g.leftFactor.firstSets.followSets.get? "S" = some follow ∧
        ∀ x, x ∈ follow ↔ x = .endMarker ∨ x = .terminal "a" := by
  intro g
  have hg : ofText "S -> a A b | a A c | a B; A -> d | ε; B -> B e; C ->; D -> f C | f D S"
      = .ok g := by
    set_option maxRecDepth 2000 in rfl
  have hA : g.firstSets.followSets.get? "A" = some [.terminal "b", .terminal "c"] := by
    simp only [g]
    cbv
  have hS : g.firstSets.followSets.get? "S" = some [.endMarker, .terminal "a"] := by
    simp only [g]
    cbv
  obtain ⟨hsets, -⟩ := sets_leftFactor (.ofText hg)
  refine ⟨hg, ?_, ?_, ?_⟩
  · simp only [g]
    cbv
  · obtain ⟨-, -, follow, follow', hfollow, hfollow', hsame⟩ := hsets "A" (by simp [g, names])
    obtain rfl := Option.some.inj (hfollow.symm.trans hA)
    exact ⟨follow', hfollow', fun x => (hsame x).trans List.mem_pair⟩
  · obtain ⟨-, -, follow, follow', hfollow, hfollow', hsame⟩ := hsets "S" (by simp [g, names])
    obtain rfl := Option.some.inj (hfollow.symm.trans hS)
    exact ⟨follow', hfollow', fun x => (hsame x).trans List.mem_pair⟩

end Grammar

end PredictiveParsing
