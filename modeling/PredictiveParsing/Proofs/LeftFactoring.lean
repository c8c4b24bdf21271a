import PredictiveParsing.Grammar.LeftFactoring
import PredictiveParsing.Proofs.Language
import PredictiveParsing.Proofs.WellFormed

/-!
# Languages of left-factored grammars

When one group of alternatives is factored out, the new nonterminal has the words of all remainders
together, so what the group shares followed by the new nonterminal has the words of the group. A
rule is factored group by group, with the groups that are still to come left in it, and then the
rules that this has added are factored in turn. So factoring is a chain of small steps, and no
nonterminal gains or loses a word in any of them.

## Main definitions

* `Grammar.Extracts`: one group of alternatives of one nonterminal is factored out.
* `Grammar.FactorSteps`: left factoring as a chain of steps between well-formed grammars.
* `Factoring.WellFormed`: the invariant of a rule part way through.

## Main statements

* `Grammar.Extracts.within`, `Grammar.Extracts.covers`: the words stay the same.
* `Grammar.factorSteps_leftFactor`: factoring is a chain of steps.
* `Grammar.leftFactor_correct`: factoring keeps a grammar well-formed and keeps all words.
-/

namespace PredictiveParsing

/-! ## Groups of alternatives -/

/-- Grouping keeps every element as often as it occurs. -/
theorem perm_flatten_groupRelated {α : Type} (related : α → α → Bool) (xs : List α) :
    (groupRelated related xs).flatten.Perm xs := by
  fun_induction groupRelated related xs with
  | case1 => exact .nil
  | case2 x xs ih =>
    rw [List.flatten_cons, List.cons_append]
    exact ((ih.append_left _).trans (List.filter_append_perm (related x) xs)).cons x

theorem mem_groupRelated_iff {α : Type} {related : α → α → Bool} {xs : List α} {x : α} :
    (∃ group ∈ groupRelated related xs, x ∈ group) ↔ x ∈ xs := by
  rw [← List.mem_flatten, (perm_flatten_groupRelated related xs).mem_iff]

/-- Two or more alternatives are in one group only if the same symbol begins them all. -/
theorem exists_lead_of_mem_groups {ps members : List Alternative}
    (h : members ∈ (leadGroups ps).map (·.map Prod.fst)) (hmany : ∀ p, members ≠ [p]) :
    ∃ s, ∀ p ∈ members, Alternative.lead p = some s := by
  obtain ⟨q, qs, rfl, hqs⟩ := exists_cons_of_mem_leadGroups h
  cases qs with
  | nil => exact absurd rfl (hmany q)
  | cons r rs => exact Alternative.exists_lead_of_sharesLead hqs

/-- Two alternatives have exactly the beginnings of what they share in common. -/
theorem Alternative.prefix_commonPrefix_iff {u : List Symbol} (p q : Alternative) :
    u <+: p.commonPrefix q ↔ u <+: p ∧ u <+: q := by
  fun_induction Alternative.commonPrefix p q generalizing u with
  | case1 a p b q h ih =>
    obtain rfl := eq_of_beq h
    cases u with
    | nil => simp
    | cons c u =>
      rw [List.cons_prefix_cons, ih, List.cons_prefix_cons, List.cons_prefix_cons, and_and_left]
  | case2 a p b q h =>
    cases u with
    | nil => simp
    | cons c u =>
      simp only [List.cons_prefix_cons, List.prefix_nil, List.cons_ne_nil, false_iff, not_and]
      rintro ⟨rfl, -⟩ rfl
      exact absurd (beq_self_eq_true _) h
  | case3 p q h =>
    cases p with
    | nil => simp +contextual
    | cons a p =>
      cases q with
      | nil => simp +contextual
      | cons b q => exact absurd rfl (h a p b q rfl)

/-- The beginnings of what some alternatives share are those that all of them have. -/
theorem prefix_sharedPrefix_iff {u : List Symbol} {ps : List Alternative} (hne : ps ≠ []) :
    u <+: sharedPrefix ps ↔ ∀ p ∈ ps, u <+: p := by
  obtain ⟨p, ps, rfl⟩ := List.exists_cons_of_ne_nil hne
  induction ps generalizing p with
  | nil => simp [sharedPrefix]
  | cons q ps ih =>
    calc u <+: sharedPrefix (p :: q :: ps)
        ↔ u <+: sharedPrefix (p.commonPrefix q :: ps) := Iff.rfl
      _ ↔ ∀ r ∈ p.commonPrefix q :: ps, u <+: r := ih _ (List.cons_ne_nil _ _)
      _ ↔ ∀ r ∈ p :: q :: ps, u <+: r := by
        simp only [List.forall_mem_cons, Alternative.prefix_commonPrefix_iff, and_assoc]

/-- What some alternatives share is a beginning of each of them. -/
theorem sharedPrefix_begins {ps : List Alternative} {p : Alternative} (h : p ∈ ps) :
    sharedPrefix ps <+: p :=
  (prefix_sharedPrefix_iff (List.ne_nil_of_mem h)).1 List.prefix_rfl p h

theorem Alternative.mem_remainder {n : Nat} {p : Alternative} {s : Symbol}
    (h : s ∈ p.remainder n) : s = .epsilon ∨ s ∈ p := by
  unfold remainder at h
  split at h
  · exact .inl (List.mem_singleton.1 h)
  · exact .inr (List.mem_of_mem_drop h)

theorem Alternative.remainder_append {shared rest : List Symbol} :
    Alternative.remainder shared.length (shared ++ rest)
      = if rest = [] then [.epsilon] else rest := by
  cases rest <;> simp [remainder]

/-- An alternative is what its group shares and the remainder. -/
theorem meaning_remainder (family : String → Language String) {shared : List Symbol}
    {p : Alternative} (h : shared <+: p) :
    meaning family p = meaning family shared * meaning family (p.remainder shared.length) := by
  obtain ⟨rest, rfl⟩ := h
  rw [Alternative.remainder_append, meaning_append]
  split
  next hrest => simp [hrest]
  next => rfl

namespace Grammar

/-! ## One group -/

/-- `h` is `g` with some alternatives of `name`, the members of a group, replaced by what they share
followed by the new nonterminal `fresh`, and the remainders as alternatives of `fresh`. -/
structure Extracts (h g : Grammar) (name fresh : String) (members kept : List Alternative) :
    Prop where
  start : h.start = g.start
  names : g.names ⊆ h.names
  fresh_not_mem : fresh ∉ g.names
  not_occurs : .nonterminal fresh ∉ g.occurrences
  mem_old : ∀ p, p ∈ g.alternatives name ↔ p ∈ kept ∨ p ∈ members
  mem_new : ∀ p, p ∈ h.alternatives name ↔
    p ∈ kept ∨ p = sharedPrefix members ++ [.nonterminal fresh]
  rest : h.alternatives fresh = members.map (Alternative.remainder (sharedPrefix members).length)
  other : ∀ other, other ≠ name → other ≠ fresh → h.alternatives other = g.alternatives other

namespace Extracts

variable {g h : Grammar} {name fresh : String} {members kept : List Alternative}

/-- The words of the remainders of a group. -/
def remainders (g : Grammar) (members : List Alternative) : Language String :=
  {w | ∃ p ∈ members, w ∈ g.languageOf (p.remainder (sharedPrefix members).length)}

/-- The languages that the nonterminals with the new one have in the old grammar. -/
def extended (g : Grammar) (fresh : String) (members : List Alternative) :
    String → Language String :=
  Function.update g.family fresh (remainders g members)

theorem meaning_extended {u : List Symbol} (hu : .nonterminal fresh ∉ u) :
    meaning (extended g fresh members) u = g.languageOf u := meaning_update_family hu _

theorem ne_fresh (hx : h.Extracts g name fresh members kept) {other : String}
    (hother : other ∈ g.names) : other ≠ fresh := by
  rintro rfl
  exact hx.fresh_not_mem hother

theorem not_mem (hx : h.Extracts g name fresh members kept) {other : String} {p : Alternative}
    (hp : p ∈ g.alternatives other) : .nonterminal fresh ∉ p := fun hs =>
  hx.not_occurs (mem_occurrences_of_mem_alternatives hp hs)

theorem fresh_not_mem_remainder (hx : h.Extracts g name fresh members kept) {p : Alternative}
    (hp : p ∈ members) (n : Nat) : .nonterminal fresh ∉ p.remainder n := by
  intro hs
  rcases Alternative.mem_remainder hs with hs | hs
  · cases hs
  · exact hx.not_mem ((hx.mem_old p).2 (.inr hp)) hs

theorem fresh_not_mem_shared (hx : h.Extracts g name fresh members kept) (hne : members ≠ []) :
    .nonterminal fresh ∉ sharedPrefix members := by
  obtain ⟨first, hfirst⟩ := List.exists_mem_of_ne_nil members hne
  intro hs
  exact hx.not_mem ((hx.mem_old first).2 (.inr hfirst)) ((sharedPrefix_begins hfirst).subset hs)

/-- A word of what is shared and one of a remainder make up a word of a member. -/
theorem languageOf_shared_mul_le (hx : h.Extracts g name fresh members kept) :
    g.languageOf (sharedPrefix members) * remainders g members ≤ g.family name := by
  rintro _ ⟨a, ha, b, ⟨q, hq, hb⟩, rfl⟩
  apply languageOf_le_family ((hx.mem_old q).2 (.inr hq))
  rw [languageOf_eq_meaning] at ha hb ⊢
  rw [meaning_remainder g.family (sharedPrefix_begins hq)]
  exact Language.append_mem_mul ha hb

theorem satisfies_extended (hx : h.Extracts g name fresh members kept) (hne : members ≠ []) :
    h.Satisfies (extended g fresh members) := by
  have hold : ∀ {other}, other ≠ fresh → ∀ p ∈ g.alternatives other,
      meaning (extended g fresh members) p ≤ extended g fresh members other := by
    intro other hother p hp
    rw [meaning_extended (hx.not_mem hp), extended, Function.update_of_ne hother]
    exact languageOf_le_family hp
  intro other p hp
  by_cases hfresh : other = fresh
  · subst hfresh
    rw [hx.rest] at hp
    obtain ⟨q, hq, rfl⟩ := List.mem_map.1 hp
    rw [meaning_extended (hx.fresh_not_mem_remainder hq _), extended, Function.update_self]
    exact fun w hw => ⟨q, hq, hw⟩
  by_cases hname : other = name
  · subst hname
    rcases (hx.mem_new p).1 hp with hp | rfl
    · exact hold hfresh p ((hx.mem_old p).2 (.inl hp))
    · rw [meaning_append, meaning_extended (hx.fresh_not_mem_shared hne), meaning_cons,
        meaning_nil, mul_one, Symbol.meaning, extended, Function.update_self,
        Function.update_of_ne hfresh]
      exact hx.languageOf_shared_mul_le
  · rw [hx.other other hname hfresh] at hp
    exact hold hfresh p hp

theorem within (hx : h.Extracts g name fresh members kept) (hne : members ≠ []) : h.Within g :=
  .of_satisfies hx.start hx.names hx.fresh_not_mem (hx.satisfies_extended hne)

theorem satisfies_family (hx : h.Extracts g name fresh members kept) : g.Satisfies h.family := by
  intro other p hp
  have hfresh := hx.ne_fresh (mem_names_of_mem_alternatives hp)
  by_cases hname : other = name
  · subst hname
    rcases (hx.mem_old p).1 hp with hkept | hmember
    · exact h.satisfies_family other p ((hx.mem_new p).2 (.inl hkept))
    · have hrest : p.remainder (sharedPrefix members).length ∈ h.alternatives fresh := by
        rw [hx.rest]
        exact List.mem_map_of_mem hmember
      calc meaning h.family p
          = meaning h.family (sharedPrefix members)
              * meaning h.family (p.remainder (sharedPrefix members).length) :=
            meaning_remainder h.family (sharedPrefix_begins hmember)
        _ ≤ meaning h.family (sharedPrefix members) * h.family fresh :=
            mul_le_mul' le_rfl (h.satisfies_family fresh _ hrest)
        _ = meaning h.family (sharedPrefix members ++ [.nonterminal fresh]) := by simp
        _ ≤ h.family other :=
            h.satisfies_family other _ ((hx.mem_new _).2 (.inr rfl))
  · exact h.satisfies_family other p (by rwa [hx.other other hname hfresh])

theorem covers (hx : h.Extracts g name fresh members kept) : h.Covers g :=
  .of_satisfies hx.start hx.names hx.satisfies_family

end Extracts

/-! ## Steps -/

/-- One step of left factoring, from one well-formed grammar to another: the alternatives come in
another order, or a group of them is factored out. -/
inductive FactorStep (g h : Grammar) : Prop
  | reorder (hg : g.WellFormed) (hh : h.WellFormed) (hstart : h.start = g.start)
      (hnames : h.names = g.names)
      (halternatives : ∀ name p, p ∈ h.alternatives name ↔ p ∈ g.alternatives name)
  | extract (hg : g.WellFormed) (hh : h.WellFormed) {name fresh : String}
      {members kept : List Alternative} (hne : members ≠ [])
      (hx : h.Extracts g name fresh members kept)

/-- Left factoring in any number of steps. -/
def FactorSteps : Grammar → Grammar → Prop := Relation.ReflTransGen FactorStep

section Steps

variable {g h f : Grammar}

theorem FactorStep.within (hstep : g.FactorStep h) : h.Within g := by
  cases hstep with
  | reorder _ _ hstart hnames halternatives =>
    refine ⟨hstart, hnames ▸ List.Subset.refl _, fun name _ => ?_⟩
    exact family_le_of_subset (fun other p => (halternatives other p).1) name
  | extract _ _ hne hx => exact hx.within hne

theorem FactorStep.covers (hstep : g.FactorStep h) : h.Covers g := by
  cases hstep with
  | reorder _ _ hstart hnames halternatives =>
    refine ⟨hstart, hnames ▸ List.Subset.refl _, fun name _ => ?_⟩
    exact family_le_of_subset (fun other p => (halternatives other p).2) name
  | extract _ _ _ hx => exact hx.covers

theorem FactorSteps.refl (g : Grammar) : g.FactorSteps g := Relation.ReflTransGen.refl

theorem FactorSteps.trans (hgh : g.FactorSteps h) (hhf : h.FactorSteps f) : g.FactorSteps f :=
  Relation.ReflTransGen.trans hgh hhf

theorem FactorStep.steps (hstep : g.FactorStep h) : g.FactorSteps h :=
  Relation.ReflTransGen.single hstep

theorem FactorSteps.within (hsteps : g.FactorSteps h) : h.Within g := by
  induction hsteps with
  | refl => exact .refl g
  | tail _ hstep ih => exact hstep.within.trans ih

theorem FactorSteps.covers (hsteps : g.FactorSteps h) : h.Covers g := by
  induction hsteps with
  | refl => exact .refl g
  | tail _ hstep ih => exact hstep.covers.trans ih

end Steps

/-- The symbols of the alternatives and the nonterminals of a grammar. -/
def Uses (g : Grammar) (s : Symbol) : Prop :=
  s ∈ g.occurrences ∨ ∃ name ∈ g.names, s = .nonterminal name

variable {g : Grammar} {s : Symbol}

theorem Uses.admits (hg : g.WellFormed) (h : g.Uses s) : g.Admits s := by
  rcases h with h | ⟨name, hname, rfl⟩
  · exact hg.admits s h
  · exact hname

theorem WellFormed.not_uses (hg : g.WellFormed) {name : String} (h : name ∉ g.taken) :
    ¬ g.Uses (.nonterminal name) := by
  rintro (hs | ⟨other, hother, heq⟩)
  · exact (hg.not_mem_occurrences h).2 hs
  · cases heq
    exact h (mem_taken.2 (.inl hother))

end Grammar

/-! ## A rule part way through -/

namespace Factoring

variable {f : Factoring} {g : Grammar} {r : Rule} {members : List Alternative}
  {groups : List (List Alternative)}

/-- The grammar in which a nonterminal has the alternatives made so far and those of the groups that
are still to come. -/
def joined (f : Factoring) (name : String) (groups : List (List Alternative)) : Grammar :=
  f.grammar.setAlternatives name (f.alternatives ++ groups.flatten)

/-- The rule of the new nonterminal for a group. -/
def remainderRule (f : Factoring) (name : String) (members : List Alternative) : Rule :=
  ⟨(f.grammar.fresh name).1, members.map (Alternative.remainder (sharedPrefix members).length)⟩

/-- The invariant of a rule of `g` part way through. Its alternatives are not replaced before the
last group is treated. -/
structure WellFormed (f : Factoring) (g : Grammar) : Prop where
  grammar : f.grammar.WellFormed
  rules : f.grammar.rules.Perm (f.added ++ g.rules)
  uses : ∀ p ∈ f.alternatives, ∀ s ∈ p, f.grammar.Uses s

theorem addGroup_of_ne (name : String) (f : Factoring) (h : ∀ p, members ≠ [p]) :
    f.addGroup name members =
      { grammar := (f.grammar.fresh name).2.insertAfter f.last (f.remainderRule name members)
        last := (f.grammar.fresh name).1
        alternatives :=
          f.alternatives ++ [sharedPrefix members ++ [.nonterminal (f.grammar.fresh name).1]]
        added := f.added ++ [f.remainderRule name members] } := by
  unfold addGroup
  split
  · exact absurd rfl (h _)
  · rfl

theorem WellFormed.mem_rules (hf : f.WellFormed g) (hr : r ∈ g.rules) : r ∈ f.grammar.rules :=
  hf.rules.mem_iff.2 (List.mem_append_right _ hr)

theorem WellFormed.mem_occurrences (hf : f.WellFormed g) (hr : r ∈ g.rules) {p : Alternative}
    (hp : p ∈ r.alternatives) {s : Symbol} (hs : s ∈ p) : s ∈ f.grammar.occurrences :=
  Grammar.mem_occurrences.2 ⟨r, hf.mem_rules hr, p, hp, hs⟩

theorem rules_addGroup_perm (name : String) (f : Factoring) (h : ∀ p, members ≠ [p]) :
    (f.addGroup name members).grammar.rules.Perm
      (f.remainderRule name members :: f.grammar.rules) := by
  rw [addGroup_of_ne name f h]
  simpa using Grammar.rules_insertAfter_perm (g := (f.grammar.fresh name).2)

/-- A group of two or more alternatives of the rule adds a rule with a fresh name. -/
theorem WellFormed.grammar_addGroup (hf : f.WellFormed g) (hr : r ∈ g.rules)
    (hmem : ∀ p ∈ members, p ∈ r.alternatives) (h : ∀ p, members ≠ [p]) :
    (f.addGroup r.name members).grammar.WellFormed := by
  have hperm := rules_addGroup_perm r.name f h
  refine hf.grammar.extend (Grammar.fresh_not_mem_taken f.grammar r.name)
    (hperm.map Rule.name) ?_ ?_ fun s hs => ?_
  · rw [addGroup_of_ne r.name f h,
      Grammar.head?_names_insertAfter (by simpa using hf.grammar.names_ne_nil)]
    simp
  · simp [addGroup_of_ne r.name f h]
  · obtain ⟨q, hq, p, hp, hs⟩ := Grammar.mem_occurrences.1 hs
    rcases List.mem_cons.1 (hperm.mem_iff.1 hq) with rfl | hq
    · obtain ⟨a, ha, rfl⟩ := List.mem_map.1 hp
      rcases Alternative.mem_remainder hs with hs | hs
      · exact .inl hs
      · exact .inr (.inr (hf.mem_occurrences hr (hmem a ha) hs))
    · exact .inr (.inr (Grammar.mem_occurrences.2 ⟨q, hq, p, hp, hs⟩))

theorem uses_of_subset {h : Grammar} (hsub : g.rules ⊆ h.rules) {s : Symbol} (hs : g.Uses s) :
    h.Uses s := by
  rcases hs with hs | ⟨name, hname, rfl⟩
  · obtain ⟨q, hq, p, hp, hs⟩ := Grammar.mem_occurrences.1 hs
    exact .inl (Grammar.mem_occurrences.2 ⟨q, hsub hq, p, hp, hs⟩)
  · obtain ⟨q, hq, rfl⟩ := Grammar.mem_names.1 hname
    exact .inr ⟨q.name, Grammar.name_mem_names (hsub hq), rfl⟩

/-- A group of alternatives of the rule keeps the invariant. -/
theorem WellFormed.addGroup (hf : f.WellFormed g) (hr : r ∈ g.rules)
    (hmem : ∀ p ∈ members, p ∈ r.alternatives) (hne : members ≠ []) :
    (f.addGroup r.name members).WellFormed g := by
  by_cases hsingle : ∃ p, members = [p]
  · obtain ⟨p, rfl⟩ := hsingle
    refine ⟨hf.grammar, hf.rules, fun q hq s hs => ?_⟩
    rcases List.mem_append.1 hq with hq | hq
    · exact hf.uses q hq s hs
    · obtain rfl := List.mem_singleton.1 hq
      exact .inl (hf.mem_occurrences hr (hmem q (by simp)) hs)
  have h := not_exists.1 hsingle
  have hperm := rules_addGroup_perm r.name f h
  have huses : ∀ {s}, f.grammar.Uses s → (f.addGroup r.name members).grammar.Uses s :=
    uses_of_subset fun q hq => hperm.mem_iff.2 (List.mem_cons_of_mem _ hq)
  refine ⟨hf.grammar_addGroup hr hmem h, ?_, fun p hp s hs => ?_⟩
  · refine hperm.trans ((hf.rules.cons _).trans ?_)
    simpa [addGroup_of_ne r.name f h] using List.perm_middle.symm
  · rw [addGroup_of_ne r.name f h] at hp
    rcases List.mem_append.1 hp with hp | hp
    · exact huses (hf.uses p hp s hs)
    · rw [List.mem_singleton.1 hp] at hs
      rcases List.mem_append.1 hs with hs | hs
      · obtain ⟨first, hfirst⟩ := List.exists_mem_of_ne_nil members hne
        have hs := (sharedPrefix_begins hfirst).subset hs
        exact huses (.inl (hf.mem_occurrences hr (hmem first hfirst) hs))
      · refine .inr ⟨_, ?_, List.mem_singleton.1 hs⟩
        exact (hperm.map Rule.name).mem_iff.2 List.mem_cons_self

theorem WellFormed.uses_of_mem (hf : f.WellFormed g) (hr : r ∈ g.rules)
    (hgroups : ∀ group ∈ groups, ∀ p ∈ group, p ∈ r.alternatives) {p : Alternative}
    (hp : p ∈ f.alternatives ++ groups.flatten) {s : Symbol} (hs : s ∈ p) : f.grammar.Uses s := by
  rcases List.mem_append.1 hp with hp | hp
  · exact hf.uses p hp s hs
  · obtain ⟨group, hgroup, hp⟩ := List.mem_flatten.1 hp
    exact .inl (hf.mem_occurrences hr (hgroups group hgroup p hp) hs)

theorem WellFormed.uses_joined (hf : f.WellFormed g) (hr : r ∈ g.rules)
    (hgroups : ∀ group ∈ groups, ∀ p ∈ group, p ∈ r.alternatives) {s : Symbol}
    (hs : s ∈ (f.joined r.name groups).occurrences) : f.grammar.Uses s := by
  obtain ⟨q, hq, p, hp, hs⟩ := Grammar.mem_occurrences.1 hs
  rcases Grammar.mem_rules_of_setAlternatives hq with ⟨-, rfl⟩ | hq
  · exact hf.uses_of_mem hr hgroups hp hs
  · exact .inl (Grammar.mem_occurrences.2 ⟨q, hq, p, hp, hs⟩)

theorem WellFormed.grammar_joined (hf : f.WellFormed g) (hr : r ∈ g.rules)
    (hgroups : ∀ group ∈ groups, ∀ p ∈ group, p ∈ r.alternatives) :
    (f.joined r.name groups).WellFormed :=
  hf.grammar.setAlternatives fun _ hp _ hs => (hf.uses_of_mem hr hgroups hp hs).admits hf.grammar

theorem WellFormed.name_mem (hf : f.WellFormed g) (hr : r ∈ g.rules) :
    r.name ∈ f.grammar.names := Grammar.name_mem_names (hf.mem_rules hr)

/-- A group of two or more alternatives adds the alternatives of the new nonterminal. -/
theorem alternatives_addGroup (name : String) (f : Factoring) (h : ∀ p, members ≠ [p])
    (other : String) :
    (f.addGroup name members).grammar.alternatives other
      = if other = (f.grammar.fresh name).1 then (f.remainderRule name members).alternatives
        else f.grammar.alternatives other := by
  have hfresh : (f.remainderRule name members).name ∉ (f.grammar.fresh name).2.names := by
    simpa [remainderRule] using Grammar.fresh_not_mem_names f.grammar name
  rw [addGroup_of_ne name f h, Grammar.alternatives_insertAfter hfresh,
    Grammar.alternatives_fresh]
  rfl

theorem alternatives_joined {name : String} (h : name ∈ f.grammar.names) (other : String) :
    (f.joined name groups).alternatives other
      = if other = name then f.alternatives ++ groups.flatten
        else f.grammar.alternatives other :=
  Grammar.alternatives_setAlternatives h other

/-- A group of two or more alternatives is factored out. -/
theorem WellFormed.extracts (hf : f.WellFormed g) (hr : r ∈ g.rules)
    (hgroups : ∀ group ∈ members :: groups, ∀ p ∈ group, p ∈ r.alternatives)
    (h : ∀ p, members ≠ [p]) :
    ((f.addGroup r.name members).joined r.name groups).Extracts
      (f.joined r.name (members :: groups)) r.name (f.grammar.fresh r.name).1 members
      (f.alternatives ++ groups.flatten) := by
  have hname := hf.name_mem hr
  have hfresh := Grammar.fresh_not_mem_names f.grammar r.name
  have hne : (f.grammar.fresh r.name).1 ≠ r.name := fun heq => hfresh (by rwa [heq])
  have hperm := (rules_addGroup_perm r.name f h).map Rule.name
  have hname' : r.name ∈ (f.addGroup r.name members).grammar.names :=
    hperm.mem_iff.2 (List.mem_cons_of_mem _ hname)
  constructor
  case start => simp [joined, addGroup_of_ne r.name f h]
  case names =>
    intro other hother
    rw [joined, Grammar.names_setAlternatives] at hother ⊢
    exact hperm.mem_iff.2 (List.mem_cons_of_mem _ hother)
  case fresh_not_mem => simpa [joined] using hfresh
  case not_occurs =>
    exact fun hs => hf.grammar.not_uses (Grammar.fresh_not_mem_taken f.grammar r.name)
      (hf.uses_joined hr hgroups hs)
  case mem_old =>
    intro p
    rw [alternatives_joined hname, if_pos rfl]
    simp only [List.flatten_cons, List.mem_append]
    grind
  case mem_new =>
    intro p
    rw [alternatives_joined hname', if_pos rfl, addGroup_of_ne r.name f h]
    simp only [List.mem_append, List.mem_singleton]
    grind
  case rest =>
    rw [alternatives_joined hname', if_neg hne, alternatives_addGroup r.name f h, if_pos rfl]
    rfl
  case other =>
    intro other hother hother'
    rw [alternatives_joined hname', alternatives_joined hname, if_neg hother, if_neg hother,
      alternatives_addGroup r.name f h, if_neg hother']

theorem joined_addGroup_singleton (name : String) (f : Factoring) (p : Alternative)
    (groups : List (List Alternative)) :
    (f.addGroup name [p]).joined name groups = f.joined name ([p] :: groups) := by
  simp [joined, addGroup]

/-- The groups of a rule keep the invariant, and they are treated in steps. -/
theorem WellFormed.foldl_addGroup (hf : f.WellFormed g) (hr : r ∈ g.rules)
    (hgroups : ∀ group ∈ groups, group ≠ [] ∧ ∀ p ∈ group, p ∈ r.alternatives) :
    (groups.foldl (Factoring.addGroup r.name) f).WellFormed g ∧
      (f.joined r.name groups).FactorSteps
        ((groups.foldl (Factoring.addGroup r.name) f).joined r.name []) := by
  induction groups generalizing f with
  | nil => exact ⟨hf, .refl _⟩
  | cons members groups ih =>
    obtain ⟨hne, hmem⟩ := hgroups members List.mem_cons_self
    have hall := fun group hgroup => (hgroups group hgroup).2
    have hrest := fun group hgroup => hgroups group (List.mem_cons_of_mem _ hgroup)
    have hnext := hf.addGroup hr hmem hne
    obtain ⟨hwf, hsteps⟩ := ih hnext hrest
    refine ⟨hwf, .trans ?_ hsteps⟩
    by_cases hsingle : ∃ p, members = [p]
    · obtain ⟨p, rfl⟩ := hsingle
      rw [joined_addGroup_singleton]
      exact .refl _
    · have hx := hf.extracts hr hall (not_exists.1 hsingle)
      exact (Grammar.FactorStep.extract (hf.grammar_joined hr hall)
        (hnext.grammar_joined hr fun group hgroup => (hrest group hgroup).2) hne hx).steps

end Factoring

namespace Grammar

variable {g : Grammar} {r : Rule} {queue : List Rule}

/-! ## One rule -/

theorem mem_groups_of_rule {group : List Alternative}
    (h : group ∈ (leadGroups r.alternatives).map (·.map Prod.fst)) :
    group ≠ [] ∧ ∀ p ∈ group, p ∈ r.alternatives := by
  obtain ⟨pairs, hpairs, rfl⟩ := List.mem_map.1 h
  refine ⟨?_, fun p hp => ?_⟩
  · obtain ⟨x, rest, rfl, -⟩ := mem_groupRelated hpairs
    simp
  · obtain ⟨x, hx, rfl⟩ := List.mem_map.1 hp
    exact List.fst_mem_of_mem_zipIdx (mem_groupRelated_iff.1 ⟨pairs, hpairs, hx⟩)

theorem mem_flatten_groups {p : Alternative} :
    p ∈ ((leadGroups r.alternatives).map (·.map Prod.fst)).flatten ↔ p ∈ r.alternatives := by
  rw [← List.map_flatten, List.mem_map]
  simp only [List.mem_flatten, leadGroups, mem_groupRelated_iff]
  rw [← List.mem_map, List.zipIdx_map_fst]

variable (hg : g.WellFormed) (hr : r ∈ g.rules)
include hg hr

/-- Grouping the alternatives of a rule changes their order only. -/
theorem mem_alternatives_joined (name : String) (p : Alternative) :
    p ∈ (Factoring.joined ⟨g, r.name, [], []⟩ r.name
      ((leadGroups r.alternatives).map (·.map Prod.fst))).alternatives name
      ↔ p ∈ g.alternatives name := by
  rw [Factoring.alternatives_joined (name_mem_names hr)]
  split
  next hname => rw [hname, hg.alternatives_eq hr, List.nil_append, mem_flatten_groups]
  next => rfl

/-- One rule is factored in steps. -/
theorem factorRule_correct :
    (g.factorGroups r).WellFormed g ∧ g.FactorSteps (g.factorRule r).1 := by
  have hf : Factoring.WellFormed ⟨g, r.name, [], []⟩ g := ⟨hg, .refl _, by simp⟩
  obtain ⟨hwf, hsteps⟩ := hf.foldl_addGroup hr fun group => mem_groups_of_rule
  have hreorder : g.FactorStep (Factoring.joined ⟨g, r.name, [], []⟩ r.name
      ((leadGroups r.alternatives).map (·.map Prod.fst))) :=
    .reorder hg (hf.grammar_joined hr fun group hgroup => (mem_groups_of_rule hgroup).2)
      start_setAlternatives (by simp [Factoring.joined]) (mem_alternatives_joined hg hr)
  have hresult : (g.factorGroups r).joined r.name [] = (g.factorRule r).1 := by
    simp [Factoring.joined, factorRule]
  exact ⟨hwf, hreorder.steps.trans (hresult ▸ hsteps)⟩

theorem wellFormed_factorRule : (g.factorRule r).1.WellFormed := by
  obtain ⟨hwf, -⟩ := factorRule_correct hg hr
  exact hwf.grammar.setAlternatives fun p hp s hs => (hwf.uses p hp s hs).admits hwf.grammar

/-- The other rules and the added ones are rules of the new grammar. -/
theorem mem_rules_factorRule {q : Rule} (hq : q ∈ (g.factorRule r).2 ++ g.rules)
    (hne : q.name ≠ r.name) : q ∈ (g.factorRule r).1.rules :=
  mem_rules_setAlternatives_of_ne ((factorRule_correct hg hr).1.rules.mem_iff.2 hq) hne

theorem nodup_names_factorRule : (((g.factorRule r).2 ++ g.rules).map Rule.name).Nodup := by
  obtain ⟨hwf, -⟩ := factorRule_correct hg hr
  exact (hwf.rules.map Rule.name).nodup_iff.1 hwf.grammar.nodup

/-! ## All rules -/

omit hr in
/-- The rules that are left in the queue, and those added to it, are untouched. -/
theorem queue_factorRule (hnodup : ((r :: queue).map Rule.name).Nodup)
    (hqueue : ∀ q ∈ r :: queue, q ∈ g.rules) :
    ((queue ++ (g.factorRule r).2).map Rule.name).Nodup ∧
      ∀ q ∈ queue ++ (g.factorRule r).2, q ∈ (g.factorRule r).1.rules := by
  have hr := hqueue r List.mem_cons_self
  have hnames := nodup_names_factorRule hg hr
  rw [List.map_append] at hnames ⊢
  obtain ⟨hadded, -, hdisjoint⟩ := List.nodup_append'.1 hnames
  obtain ⟨hnot, hrest⟩ := List.nodup_cons.1 hnodup
  have hsub : queue.map Rule.name ⊆ g.rules.map Rule.name := by
    intro name hname
    obtain ⟨q, hq, rfl⟩ := List.mem_map.1 hname
    exact List.mem_map_of_mem (hqueue q (List.mem_cons_of_mem _ hq))
  refine ⟨hrest.append hadded fun name hq ha => hdisjoint ha (hsub hq), fun q hq => ?_⟩
  rcases List.mem_append.1 hq with hq | hq
  · refine mem_rules_factorRule hg hr
      (List.mem_append_right _ (hqueue q (List.mem_cons_of_mem _ hq))) fun hname => ?_
    exact hnot (hname ▸ List.mem_map_of_mem hq)
  · apply mem_rules_factorRule hg hr (List.mem_append_left _ hq)
    intro hname
    exact hdisjoint (List.mem_map_of_mem hq) (hname ▸ List.mem_map_of_mem hr)

omit hr in
theorem factorQueue_correct (hnodup : (queue.map Rule.name).Nodup)
    (hqueue : ∀ q ∈ queue, q ∈ g.rules) :
    (g.factorQueue queue).WellFormed ∧ g.FactorSteps (g.factorQueue queue) := by
  fun_induction factorQueue g queue with
  | case1 => exact ⟨hg, .refl _⟩
  | case2 g r queue ih =>
    have hr := hqueue r List.mem_cons_self
    obtain ⟨hnodup, hqueue⟩ := queue_factorRule hg hnodup hqueue
    obtain ⟨hwf, hsteps⟩ := ih (wellFormed_factorRule hg hr) hnodup hqueue
    exact ⟨hwf, (factorRule_correct hg hr).2.trans hsteps⟩

omit hr in
theorem factorSteps_leftFactor : g.FactorSteps g.leftFactor :=
  (factorQueue_correct hg hg.nodup fun _ hq => hq).2

omit hr in
/-- Factoring keeps a grammar well-formed, and no nonterminal gets or loses a word. -/
theorem leftFactor_correct :
    g.leftFactor.WellFormed ∧ g.leftFactor.Within g ∧ g.leftFactor.Covers g :=
  have hsteps := factorSteps_leftFactor hg
  ⟨(factorQueue_correct hg hg.nodup fun _ hq => hq).1, hsteps.within, hsteps.covers⟩

end Grammar

end PredictiveParsing
