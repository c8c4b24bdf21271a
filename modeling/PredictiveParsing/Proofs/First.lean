import PredictiveParsing.Proofs.Language
import PredictiveParsing.Proofs.Rounds
import PredictiveParsing.Proofs.Attainable

/-!
# FIRST sets are exact

`FIRST` of a sequence says how the forms that the sequence derives can begin. The sets of a grammar
are sound, since what an alternative begins with, its nonterminal begins with. They are complete,
since the last form of a derivation begins with its first symbol and a replacement taken back leaves
`FIRST` of the form as large as it was.

## Main definitions

* `Grammar.Begins`: how the forms that a form derives can begin.

## Main statements

* `mem_firstOf_append`: `FIRST` of a sequence in two parts.
* `Grammar.mem_ofSequence`: the sets of a grammar say how the forms that a form derives can begin.
* `Grammar.firstSets_exact`: the rounds end, with these sets.
-/

namespace PredictiveParsing

/-! ## FIRST of a sequence -/

section FirstOf

variable {facts : List Fact} {name : String} {s x : Symbol} {u v : List Symbol}

theorem mem_membersOf : x ∈ membersOf facts name ↔ (name, x) ∈ facts := by
  simp only [membersOf, List.mem_filterMap]
  constructor
  · rintro ⟨⟨other, y⟩, hfact, h⟩
    split at h
    next heq =>
      cases h
      simpa [← eq_of_beq heq] using hfact
    next => simp at h
  · exact fun h => ⟨_, h, by simp⟩

@[simp] theorem mem_firstOf_nonterminal :
    x ∈ firstOf facts [.nonterminal name] ↔ (name, x) ∈ facts := by
  rw [← mem_membersOf]
  by_cases h : .epsilon ∈ membersOf facts name
  · by_cases hx : x = .epsilon <;> simp [firstOf, h, hx]
  · simp [firstOf, h]

theorem mem_firstOf_cons :
    x ∈ firstOf facts (s :: u) ↔
      (x ∈ firstOf facts [s] ∧ x ≠ .epsilon) ∨
        (.epsilon ∈ firstOf facts [s] ∧ x ∈ firstOf facts u) := by
  cases s with
  | epsilon => simp [firstOf]
  | nonterminal name =>
    simp only [mem_firstOf_nonterminal, ← mem_membersOf]
    by_cases h : .epsilon ∈ membersOf facts name
    · simp [firstOf, h]
    · simp only [firstOf, List.contains_iff_mem, h, if_false, false_and, or_false]
      exact ⟨fun hx => ⟨hx, fun heq => h (heq ▸ hx)⟩, And.left⟩
  | _ => simp +contextual [firstOf]

/-- A sequence in two parts begins like the first part, or like the second if the first derives the
empty word. -/
theorem mem_firstOf_append :
    x ∈ firstOf facts (u ++ v) ↔
      (x ∈ firstOf facts u ∧ x ≠ .epsilon) ∨
        (.epsilon ∈ firstOf facts u ∧ x ∈ firstOf facts v) := by
  induction u generalizing x with
  | nil => simp [firstOf]
  | cons s u ih =>
    rw [List.cons_append, mem_firstOf_cons (u := u ++ v), ih, mem_firstOf_cons (u := u),
      mem_firstOf_cons (x := .epsilon) (u := u)]
    grind

/-- More in the place of a part makes for more in the whole. -/
theorem firstOf_subset_of_part {p q : List Symbol}
    (h : firstOf facts p ⊆ firstOf facts q) :
    firstOf facts (u ++ (p ++ v)) ⊆ firstOf facts (u ++ (q ++ v)) := by
  intro x hx
  simp only [mem_firstOf_append] at hx ⊢
  have hx' := @h x
  have hε := @h .epsilon
  grind

/-- More facts about the nonterminals of a sequence make for more in `FIRST`. -/
theorem firstOf_subset {others : List Fact}
    (h : ∀ name, .nonterminal name ∈ u → ∀ x, (name, x) ∈ facts → (name, x) ∈ others) :
    firstOf facts u ⊆ firstOf others u := by
  induction u with
  | nil => exact List.Subset.refl _
  | cons s u ih =>
    have hhead : firstOf facts [s] ⊆ firstOf others [s] := by
      cases s with
      | nonterminal name =>
        intro x hx
        exact mem_firstOf_nonterminal.2
          (h name List.mem_cons_self x (mem_firstOf_nonterminal.1 hx))
      | _ => exact List.Subset.refl _
    have htail := ih fun name hname => h name (List.mem_cons_of_mem _ hname)
    intro x hx
    rcases mem_firstOf_cons.1 hx with ⟨hx, hne⟩ | ⟨hε, hx⟩
    · exact mem_firstOf_cons.2 (.inl ⟨hhead hx, hne⟩)
    · exact mem_firstOf_cons.2 (.inr ⟨hhead hε, htail hx⟩)

/-- Members of `FIRST` come from the sequence or from a fact. -/
theorem mem_of_mem_firstOf (h : x ∈ firstOf facts u) :
    x = .epsilon ∨ x ∈ u ∨ ∃ name, (name, x) ∈ facts := by
  induction u with
  | nil => exact .inl (List.mem_singleton.1 h)
  | cons s u ih =>
    rcases mem_firstOf_cons.1 h with ⟨h, hne⟩ | ⟨-, h⟩
    · cases s with
      | nonterminal name => exact .inr (.inr ⟨name, mem_firstOf_nonterminal.1 h⟩)
      | epsilon => exact .inl (List.mem_singleton.1 h)
      | _ => exact .inr (.inl (by simp [List.mem_singleton.1 h]))
    · rcases ih h with h | h | h
      · exact .inl h
      · exact .inr (.inl (List.mem_cons_of_mem _ h))
      · exact .inr (.inr h)

theorem ne_nonterminal_of_mem_firstOf (hfacts : ∀ fact ∈ facts, fact.2.nonterminal? = none)
    (h : x ∈ firstOf facts u) : x.nonterminal? = none := by
  induction u with
  | nil => simp [List.mem_singleton.1 h, Symbol.nonterminal?]
  | cons s u ih =>
    rcases mem_firstOf_cons.1 h with ⟨h, -⟩ | ⟨-, h⟩
    · cases s with
      | nonterminal name => exact hfacts _ (mem_firstOf_nonterminal.1 h)
      | _ => rw [List.mem_singleton.1 h]; rfl
    · exact ih h

end FirstOf

namespace Grammar

variable {g : Grammar} {facts : List Fact} {name : String} {x : Symbol} {u v : List Symbol}

/-! ## How a form can begin -/

/-- How the forms that a form derives can begin when all `epsilon` symbols are erased: with a
terminal, with nothing at all, or with an end marker of the form itself. -/
def Begins (g : Grammar) (u : List Symbol) : Symbol → Prop
  | .terminal a => ∃ v, g.Derives u v ∧ (eraseEpsilon v).head? = some (.terminal a)
  | .epsilon => [] ∈ g.languageOf u
  | .endMarker => ∃ v w, u = v ++ .endMarker :: w ∧ [] ∈ g.languageOf v
  | .nonterminal _ => False

theorem begins_epsilon : g.Begins u .epsilon ↔ ∃ v, g.Derives u v ∧ eraseEpsilon v = [] := Iff.rfl

theorem Begins.append_right (h : g.Begins u x) (hx : x ≠ .epsilon) (v : List Symbol) :
    g.Begins (u ++ v) x := by
  cases x with
  | terminal a =>
    obtain ⟨w, hw, ha⟩ := h
    exact ⟨w ++ v, hw.append_right v, by simp [List.head?_append, ha]⟩
  | nonterminal name => exact h
  | epsilon => exact absurd rfl hx
  | endMarker =>
    obtain ⟨before, after, rfl, hbefore⟩ := h
    exact ⟨before, after ++ v, by simp, hbefore⟩

theorem Begins.append_left (hu : g.Begins u .epsilon) (h : g.Begins v x) :
    g.Begins (u ++ v) x := by
  obtain ⟨w, hw, hε⟩ := begins_epsilon.1 hu
  cases x with
  | terminal a =>
    obtain ⟨y, hy, ha⟩ := h
    exact ⟨w ++ y, hw.append hy, by simp [hε, ha]⟩
  | nonterminal name => exact h
  | epsilon =>
    obtain ⟨y, hy, hnil⟩ := begins_epsilon.1 h
    exact begins_epsilon.2 ⟨w ++ y, hw.append hy, by simp [hε, hnil]⟩
  | endMarker =>
    obtain ⟨before, after, rfl, y, hy, hnil⟩ := h
    exact ⟨u ++ before, after, by simp, w ++ y, hw.append hy, by simpa [hε] using hnil⟩

/-- What an alternative begins with, its nonterminal begins with. An end marker does not count, as
it is in the alternative only. -/
theorem Begins.nonterminal {p : Alternative} (h : g.Begins p x) (hp : p ∈ g.alternatives name)
    (hx : x ≠ .endMarker) : g.Begins [.nonterminal name] x := by
  cases x with
  | terminal a =>
    obtain ⟨v, hv, ha⟩ := h
    exact ⟨v, (derives_nonterminal hp).trans hv, ha⟩
  | nonterminal other => exact h
  | epsilon => exact languageOf_le_family hp h
  | endMarker => exact absurd rfl hx

theorem mem_of_begins_endMarker (h : g.Begins u .endMarker) : .endMarker ∈ u := by
  obtain ⟨before, after, rfl, -⟩ := h
  simp

theorem WellFormed.not_begins_endMarker (hg : g.WellFormed) {p : Alternative}
    (hp : p ∈ g.alternatives name) : ¬ g.Begins p .endMarker := fun h =>
  hg.admits_of_mem hp (mem_of_begins_endMarker h)

/-! ## Soundness -/

/-- `FIRST` of a sequence is sound if the facts are. -/
theorem begins_of_mem_firstOf (hfacts : ∀ fact ∈ facts, g.Begins [.nonterminal fact.1] fact.2)
    (h : x ∈ firstOf facts u) : g.Begins u x := by
  induction u with
  | nil =>
    obtain rfl := List.mem_singleton.1 h
    exact begins_epsilon.2 ⟨[], .refl _, rfl⟩
  | cons s u ih =>
    have hsingle : ∀ y, y ∈ firstOf facts [s] → g.Begins [s] y := by
      intro y hy
      cases s with
      | nonterminal name => exact hfacts _ (mem_firstOf_nonterminal.1 hy)
      | terminal a =>
        obtain rfl := List.mem_singleton.1 hy
        exact ⟨_, .refl _, rfl⟩
      | epsilon =>
        obtain rfl := List.mem_singleton.1 hy
        exact begins_epsilon.2 ⟨_, .refl _, rfl⟩
      | endMarker =>
        obtain rfl := List.mem_singleton.1 hy
        exact ⟨[], [], rfl, [], .refl _, rfl⟩
    rcases mem_firstOf_cons.1 h with ⟨h, hx⟩ | ⟨hε, h⟩
    · exact (hsingle x h).append_right hx u
    · exact (hsingle _ hε).append_left (ih h)

theorem mem_firstRules {rule : List Fact → List Fact} :
    rule ∈ g.firstRules ↔ ∃ r ∈ g.rules, ∃ p ∈ r.alternatives, firstRule r.name p = rule := by
  simp [firstRules]

theorem mem_firstRule {p : Alternative} {fact : Fact} :
    fact ∈ firstRule name p facts ↔ fact.1 = name ∧ fact.2 ∈ firstOf facts p := by
  obtain ⟨other, s⟩ := fact
  simp only [firstRule, List.mem_map, Prod.mk.injEq]
  grind

theorem begins_of_mem_facts (hg : g.WellFormed) :
    ∀ fact ∈ g.firstSets.facts, g.Begins [.nonterminal fact.1] fact.2 := by
  refine saturate_induction (by simp) ?_
  intro rule hrule known hknown fact hfact
  obtain ⟨r, hr, p, hp, rfl⟩ := mem_firstRules.1 hrule
  obtain ⟨hname, hmem⟩ := mem_firstRule.1 hfact
  have hbegins := begins_of_mem_firstOf hknown hmem
  have hp' : p ∈ g.alternatives r.name := by rwa [hg.alternatives_eq hr]
  rw [hname]
  apply hbegins.nonterminal hp'
  intro hx
  exact hg.not_begins_endMarker hp' (hx ▸ hbegins)

/-! ## Completeness -/

theorem mem_lookaheads :
    x ∈ g.lookaheads ↔
      x.nonterminal? = none ∧ (x ∈ g.occurrences ∨ x = .epsilon ∨ x = .endMarker) := by
  simp only [lookaheads, List.mem_eraseDups, List.mem_filter, List.mem_append, List.mem_pair,
    Option.isNone_iff_eq_none]
  exact and_comm

theorem mem_factDomain {fact : Fact} :
    fact ∈ g.factDomain ↔ fact.1 ∈ g.names ∧ fact.2 ∈ g.lookaheads := by
  obtain ⟨other, s⟩ := fact
  simp [factDomain]

theorem nonterminal?_of_mem_lookaheads (h : x ∈ g.lookaheads) : x.nonterminal? = none :=
  (mem_lookaheads.1 h).1

/-- A sequence of symbols of the grammar begins with nothing that is not in it. -/
theorem mem_lookaheads_of_mem_firstOf (hfacts : facts ⊆ g.factDomain)
    (hu : ∀ s ∈ u, s ∈ g.occurrences) (h : x ∈ firstOf facts u) : x ∈ g.lookaheads := by
  have hlook := fun fact (hf : fact ∈ facts) => (mem_factDomain.1 (hfacts hf)).2
  rcases mem_of_mem_firstOf h with rfl | hx | ⟨name, hx⟩
  · exact mem_lookaheads.2 ⟨rfl, .inr (.inl rfl)⟩
  · exact mem_lookaheads.2 ⟨ne_nonterminal_of_mem_firstOf
      (fun fact hf => nonterminal?_of_mem_lookaheads (hlook fact hf)) h, .inl (hu x hx)⟩
  · exact hlook _ hx

/-- The alternatives say nothing about symbols that are not in the grammar. -/
theorem staysIn_firstRules (g : Grammar) : StaysIn g.factDomain g.firstRules := by
  intro rule hrule known hknown fact hfact
  obtain ⟨r, hr, p, hp, rfl⟩ := mem_firstRules.1 hrule
  obtain ⟨hname, hmem⟩ := mem_firstRule.1 hfact
  exact mem_factDomain.2 ⟨hname ▸ name_mem_names hr, mem_lookaheads_of_mem_firstOf hknown
    (fun s hs => mem_occurrences.2 ⟨r, hr, p, hp, hs⟩) hmem⟩

theorem facts_firstSets_subset (g : Grammar) : g.firstSets.facts ⊆ g.factDomain :=
  saturate_subset (List.nil_subset _)

/-- What an alternative begins with is in the set of its nonterminal. -/
theorem firstOf_alternative_subset {p : Alternative} (hp : p ∈ g.alternatives name) :
    firstOf g.firstSets.facts p ⊆ firstOf g.firstSets.facts [.nonterminal name] := by
  intro x hx
  obtain ⟨r, hr, rfl, hpr⟩ := exists_rule_of_mem_alternatives hp
  exact mem_firstOf_nonterminal.2 (rule_saturate_subset (staysIn_firstRules g) (by simp)
    (mem_firstRules.2 ⟨r, hr, p, hpr, rfl⟩) (mem_firstRule.2 ⟨rfl, hx⟩))

/-- The sets of a grammar are the least ones that agree with its alternatives. -/
theorem facts_firstSets_subset_of_closed (hg : g.WellFormed)
    (h : ∀ name, ∀ p ∈ g.alternatives name, firstOf facts p ⊆ firstOf facts [.nonterminal name]) :
    g.firstSets.facts ⊆ facts := by
  refine saturate_induction (by simp) fun rule hrule known hknown fact hfact => ?_
  obtain ⟨r, hr, p, hp, rfl⟩ := mem_firstRules.1 hrule
  obtain ⟨hname, hmem⟩ := mem_firstRule.1 hfact
  have hmem : fact.2 ∈ firstOf facts p := firstOf_subset (fun _ _ _ hx => hknown _ hx) hmem
  rw [← hg.alternatives_eq hr] at hp
  have hfact' := mem_firstOf_nonterminal.1 (h r.name p hp hmem)
  rwa [← hname] at hfact'

/-- A replacement taken back loses nothing of `FIRST`. -/
theorem firstOf_subset_of_derives (h : g.Derives u v) :
    firstOf g.firstSets.facts v ⊆ firstOf g.firstSets.facts u := by
  induction h with
  | refl => exact List.Subset.refl _
  | tail _ hstep ih =>
    refine List.Subset.trans ?_ ih
    obtain ⟨before, after, hp⟩ := hstep
    exact firstOf_subset_of_part (firstOf_alternative_subset hp)

theorem mem_firstOf_of_head? (hx : x.isTerminal) (h : (eraseEpsilon u).head? = some x) :
    x ∈ firstOf facts u := by
  induction u with
  | nil => simp at h
  | cons s u ih =>
    rw [mem_firstOf_cons]
    cases s with
    | epsilon => exact .inr ⟨by simp [firstOf], ih h⟩
    | _ =>
      obtain rfl := Option.some.inj h
      simp_all [firstOf, Symbol.isTerminal]

theorem epsilon_mem_firstOf (h : eraseEpsilon u = []) : .epsilon ∈ firstOf facts u := by
  induction u with
  | nil => simp [firstOf]
  | cons s u ih => cases s <;> simp_all [firstOf]

/-- The sets of a grammar say how the forms that a form derives can begin. -/
theorem mem_ofSequence (hg : g.WellFormed) : x ∈ g.firstSets.ofSequence u ↔ g.Begins u x := by
  refine ⟨begins_of_mem_firstOf (begins_of_mem_facts hg), fun h => ?_⟩
  have hε : ∀ {u}, g.Begins u .epsilon → .epsilon ∈ firstOf g.firstSets.facts u := by
    intro u hu
    obtain ⟨w, hw, hnil⟩ := begins_epsilon.1 hu
    exact firstOf_subset_of_derives hw (epsilon_mem_firstOf hnil)
  cases x with
  | terminal a =>
    obtain ⟨w, hw, ha⟩ := h
    exact firstOf_subset_of_derives hw (mem_firstOf_of_head? rfl ha)
  | nonterminal name => exact h.elim
  | epsilon => exact hε h
  | endMarker =>
    obtain ⟨before, after, rfl, hbefore⟩ := h
    exact mem_firstOf_append.2 (.inr ⟨hε hbefore, by simp [firstOf]⟩)

end Grammar

/-! ## Exact sets -/

/-- Sets that say exactly how the forms of a grammar can begin. -/
structure FirstSets.Exact (first : FirstSets) (g : Grammar) : Prop where
  /-- A terminal is in `FIRST` if some derived form begins with it. -/
  terminal : ∀ u a, .terminal a ∈ first.ofSequence u ↔
    ∃ v, g.Derives u v ∧ (eraseEpsilon v).head? = some (.terminal a)
  /-- The empty word is in `FIRST` if it is derived. -/
  epsilon : ∀ u, .epsilon ∈ first.ofSequence u ↔ ∃ v, g.Derives u v ∧ eraseEpsilon v = []
  /-- The end marker is in `FIRST` if it comes after a part that derives the empty word. -/
  endMarker : ∀ u, .endMarker ∈ first.ofSequence u ↔
    ∃ before after v, u = before ++ .endMarker :: after ∧ g.Derives before v ∧ eraseEpsilon v = []
  /-- There is nothing else in `FIRST`. -/
  nonterminal : ∀ u name, .nonterminal name ∉ first.ofSequence u
  /-- The set of a nonterminal is `FIRST` of the nonterminal alone. -/
  get?_mem : ∀ name ∈ g.names, ∃ set, first.get? name = some set ∧
    ∀ x, x ∈ set ↔ x ∈ first.ofSequence [.nonterminal name]
  /-- There are no other sets. -/
  get?_not_mem : ∀ name ∉ g.names, first.get? name = none
  /-- A nonterminal is nullable if it derives the empty word. -/
  isNullable : ∀ name, first.isNullable name = true ↔
    ∃ v, g.Derives [.nonterminal name] v ∧ eraseEpsilon v = []

namespace Grammar

variable {g : Grammar} {name : String}

theorem get?_firstSets (h : name ∈ g.names) :
    g.firstSets.get? name = some (membersOf g.firstSets.facts name) :=
  if_pos (declares_iff.2 h)

theorem get?_firstSets_eq_none (h : name ∉ g.names) : g.firstSets.get? name = none :=
  if_neg fun hd => h (declares_iff.1 hd)

theorem isNullable_firstSets :
    g.firstSets.isNullable name = true ↔ .epsilon ∈ g.firstSets.ofSequence [.nonterminal name] := by
  have hfact : .epsilon ∈ g.firstSets.ofSequence [.nonterminal name]
      ↔ (name, .epsilon) ∈ g.firstSets.facts := mem_firstOf_nonterminal
  by_cases h : name ∈ g.names
  · simp [FirstSets.isNullable, get?_firstSets h, hfact, mem_membersOf]
  · have : (name, .epsilon) ∉ g.firstSets.facts := fun hmem =>
      h (mem_factDomain.1 (facts_firstSets_subset g hmem)).1
    simp [FirstSets.isNullable, get?_firstSets_eq_none h, hfact, this]

theorem exact_firstSets (hg : g.WellFormed) : g.firstSets.Exact g where
  terminal _ _ := mem_ofSequence hg
  epsilon _ := mem_ofSequence hg
  endMarker u := by
    rw [mem_ofSequence hg]
    exact ⟨fun ⟨before, after, hu, v, hv, hnil⟩ => ⟨before, after, v, hu, hv, hnil⟩,
      fun ⟨before, after, v, hu, hv, hnil⟩ => ⟨before, after, hu, v, hv, hnil⟩⟩
  nonterminal _ _ h := (mem_ofSequence hg).1 h
  get?_mem name hname := ⟨_, get?_firstSets hname, fun _ =>
    mem_membersOf.trans mem_firstOf_nonterminal.symm⟩
  get?_not_mem _ := get?_firstSets_eq_none
  isNullable _ := isNullable_firstSets.trans (mem_ofSequence hg)

/-- A nonterminal without alternatives derives nothing, and no sequence begins with anything after
it. -/
theorem ofSequence_of_alternatives_eq_nil (hg : g.WellFormed) (h : g.alternatives name = [])
    (u : List Symbol) : g.firstSets.ofSequence (.nonterminal name :: u) = [] := by
  have hnone : ∀ x, x ∉ firstOf g.firstSets.facts [.nonterminal name] := by
    intro x hx
    have hbegins := (mem_ofSequence hg).1 hx
    cases x with
    | terminal a =>
      obtain ⟨v, hv, ha⟩ := hbegins
      simp [eq_of_derives_of_alternatives_eq_nil h hv] at ha
    | nonterminal other => exact hbegins
    | epsilon =>
      obtain ⟨v, hv, hnil⟩ := begins_epsilon.1 hbegins
      simp [eq_of_derives_of_alternatives_eq_nil h hv] at hnil
    | endMarker => simpa using mem_of_begins_endMarker hbegins
  apply List.eq_nil_iff_forall_not_mem.2
  intro x hx
  rcases mem_firstOf_cons.1 hx with ⟨hx, -⟩ | ⟨hε, -⟩
  · exact hnone x hx
  · exact hnone _ hε

/-- The rounds that compute the `FIRST` sets of an attainable grammar end, with exact sets. A
nonterminal without alternatives, or a name that is not declared, derives nothing but itself. -/
theorem firstSets_exact (hg : g.Attainable) :
    (∃ n, g.firstSets.facts = (round g.firstRules)^[n] [] ∧
      (∀ m < n, round g.firstRules ((round g.firstRules)^[m] []) ≠ (round g.firstRules)^[m] []) ∧
      round g.firstRules g.firstSets.facts = g.firstSets.facts) ∧
    g.firstSets.Exact g ∧
    ∀ name, (name ∉ g.names ∨ ⟨name, []⟩ ∈ g.rules) →
      (∀ v, g.Derives [.nonterminal name] v → v = [.nonterminal name]) ∧
      ∀ u, g.firstSets.ofSequence (.nonterminal name :: u) = [] := by
  have hrules := staysIn_firstRules g
  obtain ⟨n, hn, hfirst⟩ := saturate_eq_iterate_round hrules (List.nil_subset _)
  refine ⟨⟨n, hn, hfirst, round_saturate hrules (List.nil_subset _)⟩,
    exact_firstSets hg.wellFormed, fun name hname => ?_⟩
  have hnil : g.alternatives name = [] := by
    rcases hname with hname | hname
    · exact alternatives_eq_nil hname
    · exact hg.wellFormed.alternatives_eq hname
  exact ⟨fun v hv => eq_of_derives_of_alternatives_eq_nil hnil hv,
    ofSequence_of_alternatives_eq_nil hg.wellFormed hnil⟩

/-- The sets of a grammar with an alternative for the empty word and a nonterminal without any. -/
theorem firstSets_exact_of_text :
    let g : Grammar :=
      { rules := [⟨"S", [[.nonterminal "A", .terminal "b"]]⟩,
          ⟨"A", [[.terminal "a", .nonterminal "A"], [.epsilon]]⟩, ⟨"B", []⟩]
        start := "S" }
    ofText "S -> A b; A -> a A | ε; B ->" = .ok g ∧
      (∃ n, g.firstSets.facts = (round g.firstRules)^[n] []) ∧ g.firstSets.Exact g ∧
      ∀ u, g.firstSets.ofSequence (.nonterminal "B" :: u) = [] := by
  intro g
  have hg : ofText "S -> A b; A -> a A | ε; B ->" = .ok g := rfl
  obtain ⟨⟨n, hn, -⟩, hexact, hnone⟩ := firstSets_exact (.ofText hg)
  exact ⟨hg, ⟨n, hn⟩, hexact, (hnone "B" (.inr (by simp [g]))).2⟩

end Grammar

end PredictiveParsing
