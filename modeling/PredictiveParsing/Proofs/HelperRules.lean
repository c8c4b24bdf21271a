import PredictiveParsing.Proofs.Spelling

/-!
# The rules without left recursion

A rule without an alternative that begins with its own nonterminal is kept. Any other rule loses
those alternatives to the rule of its helper, which comes directly after it. A helper begins with
what follows the nonterminal in its recursive alternatives. If nothing follows it in any of them, as
in `A → A`, the helper begins with itself. No other new rule is recursive.

## Main definitions

* `Rule.IsRecursive`: a rule has an alternative that begins with its nonterminal.
* `Rule.Circular`: nothing follows the nonterminal in these alternatives.
* `Rule.separated`: what becomes of a rule.

## Main statements

* `Grammar.rules_eliminateLeftRecursion`: all rules give way to their new rules.
* `Grammar.recursion_eliminateLeftRecursion`: what left recursion remains, and what another round
  does.
-/

namespace PredictiveParsing

/-! ## What becomes of a rule -/

namespace Rule

/-- A rule has an alternative that begins with its nonterminal. -/
def IsRecursive (r : Rule) : Prop :=
  ∃ p ∈ r.alternatives, p.head? = some (.nonterminal r.name)

instance (r : Rule) : Decidable r.IsRecursive :=
  inferInstanceAs (Decidable (∃ p ∈ r.alternatives, p.head? = some (.nonterminal r.name)))

/-- A rule is recursive, but nothing follows its nonterminal in the alternatives that begin with
it. -/
def Circular (r : Rule) : Prop :=
  r.IsRecursive ∧ ∀ p ∈ r.alternatives, p.head? = some (.nonterminal r.name) →
    eraseEpsilon p.tail = []

instance (r : Rule) : Decidable r.Circular :=
  inferInstanceAs (Decidable (r.IsRecursive ∧ ∀ p ∈ r.alternatives,
    p.head? = some (.nonterminal r.name) → eraseEpsilon p.tail = []))

/-- What becomes of a rule. If it is recursive, its other alternatives go on with the helper, and
the rule of the helper comes directly after it. The helper takes the place of an alternative for the
empty word. -/
def separated (r : Rule) (helper : String) : List Rule :=
  if r.IsRecursive then
    [⟨r.name, (r.alternatives.filter (·.head? ≠ some (.nonterminal r.name))).map fun p =>
        if eraseEpsilon p = [] then [.nonterminal helper] else p ++ [.nonterminal helper]⟩,
      ⟨helper, [eraseEpsilon ((r.alternatives.filter
          (·.head? = some (.nonterminal r.name))).flatMap List.tail) ++ [.nonterminal helper],
        [.epsilon]]⟩]
  else [r]

variable {r q : Rule} {p : Alternative} {helper : String}

theorem isRecursive_iff : r.IsRecursive ↔ r.recursive ≠ [] := by
  simp [IsRecursive, recursive, Alternative.beginsWith, List.filter_eq_nil_iff]

theorem separated_of_not (h : ¬ r.IsRecursive) (helper : String) : r.separated helper = [r] :=
  if_neg h

theorem isEpsilon_iff : Alternative.isEpsilon p ↔ eraseEpsilon p = [] := by
  simp [Alternative.isEpsilon, eraseEpsilon]

theorem others_eq (r : Rule) :
    r.others = r.alternatives.filter (·.head? ≠ some (.nonterminal r.name)) :=
  List.filter_congr fun p _ => Bool.eq_iff_iff.2 (by simp [Alternative.beginsWith])

theorem recursive_eq (r : Rule) :
    r.recursive = r.alternatives.filter (·.head? = some (.nonterminal r.name)) :=
  List.filter_congr fun p _ => Bool.eq_iff_iff.2 (by simp [Alternative.beginsWith])

theorem separated_of_isRecursive (h : r.IsRecursive) (helper : String) :
    r.separated helper
      = [⟨r.name, r.leading helper⟩, ⟨helper, [r.trailing helper, [.epsilon]]⟩] := by
  have hleading : r.leading helper = (r.alternatives.filter
      (·.head? ≠ some (.nonterminal r.name))).map fun p =>
        if eraseEpsilon p = [] then [.nonterminal helper] else p ++ [.nonterminal helper] := by
    rw [leading, others_eq]
    refine List.map_congr_left fun p _ => ?_
    split <;> simp_all [isEpsilon_iff]
  rw [separated, if_pos h, hleading, trailing_eq, tail, recursive_eq]

/-- The rule of a nonterminal that has a helper is no longer recursive. -/
theorem not_isRecursive_leading (hne : helper ≠ r.name) :
    ¬ (⟨r.name, r.leading helper⟩ : Rule).IsRecursive := by
  rintro ⟨p, hp, hhead⟩
  obtain ⟨q, hq, rfl⟩ := List.mem_map.1 hp
  have hq := (List.mem_filter.1 hq).2
  split at hhead
  · exact hne (by simpa using hhead)
  next hsome =>
    cases q with
    | nil => exact hsome rfl
    | cons s q => simp_all [Alternative.beginsWith]

/-- The rule of a helper is recursive only if nothing follows the nonterminal. -/
theorem isRecursive_trailing_iff (hhelper : .nonterminal helper ∉ r.tail) :
    (⟨helper, [r.trailing helper, [.epsilon]]⟩ : Rule).IsRecursive ↔ eraseEpsilon r.tail = [] := by
  have hhelper : .nonterminal helper ∉ eraseEpsilon r.tail := fun hs =>
    hhelper (List.mem_of_mem_filter hs)
  rw [IsRecursive, trailing_eq]
  cases h : eraseEpsilon r.tail with
  | nil => simp
  | cons s u =>
    simp only [h, List.mem_cons, not_or] at hhelper
    simpa using Ne.symm hhelper.1

theorem circular_iff : r.Circular ↔ r.IsRecursive ∧ eraseEpsilon r.tail = [] := by
  refine and_congr_right fun _ => ?_
  simp only [tail, recursive_eq, eraseEpsilon, List.filter_flatMap, List.flatMap_eq_nil_iff,
    List.mem_filter, decide_eq_true_eq, and_imp]

/-- What comes of a recursive rule is recursive only if it is the rule of a helper that stands for
itself. -/
theorem isRecursive_of_mem_separated (hrec : r.IsRecursive) (hne : helper ≠ r.name)
    (hhelper : .nonterminal helper ∉ r.tail) (hq : q ∈ r.separated helper) :
    q.IsRecursive ↔ r.Circular ∧ q = ⟨helper, [[.nonterminal helper], [.epsilon]]⟩ := by
  rw [separated_of_isRecursive hrec] at hq
  rcases List.mem_pair.1 hq with rfl | rfl
  · simp [not_isRecursive_leading hne, Ne.symm hne]
  · rw [isRecursive_trailing_iff hhelper, circular_iff]
    simp +contextual [hrec, trailing_eq]

theorem mem_separated_of_circular (h : r.Circular) (helper : String) :
    ⟨helper, [[.nonterminal helper], [.epsilon]]⟩ ∈ r.separated helper := by
  obtain ⟨hrec, htail⟩ := circular_iff.1 h
  simp [separated_of_isRecursive hrec, trailing_eq, htail]

/-- The terminals of a rule are in what becomes of it. -/
theorem exists_mem_separated {a : String} (hp : p ∈ r.alternatives) (ha : .terminal a ∈ p)
    (helper : String) :
    ∃ q ∈ r.separated helper, ∃ p ∈ q.alternatives, .terminal a ∈ p := by
  by_cases hrec : r.IsRecursive
  · rw [separated_of_isRecursive hrec]
    rcases mem_others_or_mem_recursive hp with hp | hp
    · refine ⟨_, List.mem_cons_self, _, List.mem_map_of_mem hp, ?_⟩
      have hsome : ¬ Alternative.isEpsilon p := fun h => by
        simpa using List.all_eq_true.1 h _ ha
      simp [hsome, ha]
    · refine ⟨_, List.mem_cons_of_mem _ List.mem_cons_self, _, List.mem_cons_self, ?_⟩
      obtain ⟨-, hcons⟩ := mem_recursive.1 hp
      rw [hcons] at ha
      have ha : .terminal a ∈ p.tail := by simpa using ha
      have hmem : .terminal a ∈ r.tail := List.mem_flatMap.2 ⟨p, hp, ha⟩
      simp [trailing_eq, eraseEpsilon, hmem]
  · exact ⟨r, by simp [separated_of_not hrec], p, hp, ha⟩

end Rule

namespace Grammar

variable {g : Grammar} {r : Rule} {done rs : List Rule} {name : String}

/-! ## One rule -/

/-- One rule gives way to its own new rules. -/
theorem rules_eliminateRule (hnodup : g.names.Nodup) (hrules : g.rules = done ++ r :: rs) :
    (g.eliminateRule r).rules = done ++ (r.separated (g.helper r) ++ rs) := by
  by_cases hrec : r.IsRecursive
  · have hcounted : (g.fresh r.name).2.rules = done ++ r :: rs := by rw [rules_fresh, hrules]
    have hlast := (not_mem_of_rules_eq hnodup hrules).2
    have hset := rules_setAlternatives_of_append hcounted hlast (r.leading (g.helper r))
    rw [eliminateRule_eq (Rule.isRecursive_iff.1 hrec), Rule.separated_of_isRecursive hrec]
    exact rules_insertAfter_of_append hset hlast _
  · rw [eliminateRule_of_nil (not_not.1 (mt Rule.isRecursive_iff.2 hrec)), hrules,
      Rule.separated_of_not hrec]
    rfl

/-- The names in use only become more. -/
theorem taken_subset_eliminateRule (hnodup : g.names.Nodup) (hr : r ∈ g.rules) :
    g.taken ⊆ (g.eliminateRule r).taken := by
  intro name hname
  rw [mem_taken] at hname ⊢
  refine hname.imp (fun h => names_subset_eliminateRule h) (Or.imp_right fun hs => ?_)
  obtain ⟨done, rs, hrules⟩ := List.append_of_mem hr
  obtain ⟨q, hq, p, hp, hs⟩ := mem_occurrences.1 hs
  rw [mem_occurrences, rules_eliminateRule hnodup hrules]
  rw [hrules, List.mem_append, List.mem_cons] at hq
  rcases hq with hq | rfl | hq
  · exact ⟨q, by simp [hq], p, hp, hs⟩
  · obtain ⟨q', hq', hmem⟩ := Rule.exists_mem_separated hp hs (g.helper q)
    exact ⟨q', by simp [hq'], hmem⟩
  · exact ⟨q, by simp [hq], p, hp, hs⟩

/-! ## All rules -/

/-- The rules that are treated give way to their new rules. The helpers have names of their own. -/
theorem exists_helpers_foldl_eliminateRule (hg : g.WellFormed) (hrules : g.rules = done ++ rs) :
    ∃ helper : String → String,
      (rs.foldl eliminateRule g).rules
        = done ++ rs.flatMap (fun r => r.separated (helper r.name)) ∧
      (∀ r ∈ rs, r.IsRecursive → helper r.name ∉ g.taken) ∧
      rs.Pairwise fun r q => r.IsRecursive → q.IsRecursive → helper r.name ≠ helper q.name := by
  induction rs generalizing g done with
  | nil => exact ⟨id, by simpa using hrules, by simp, .nil⟩
  | cons r rs ih =>
    have hr : r ∈ g.rules := by simp [hrules]
    have hstep := rules_eliminateRule hg.nodup hrules
    rw [← List.append_assoc] at hstep
    obtain ⟨helper, hresult, hfresh, hpairwise⟩ := ih (wellFormed_eliminateRule hg hr) hstep
    have hne : ∀ q ∈ rs, q.name ≠ r.name := fun q hq hname =>
      (not_mem_of_rules_eq hg.nodup hrules).2 (hname ▸ List.mem_map_of_mem hq)
    have hlater : ∀ q ∈ rs, Function.update helper r.name (g.helper r) q.name = helper q.name :=
      fun q hq => Function.update_of_ne (hne q hq) ..
    refine ⟨Function.update helper r.name (g.helper r), ?_, fun q hq hrec => ?_, ?_⟩
    · have hrest : rs.flatMap (fun q => q.separated
            (Function.update helper r.name (g.helper r) q.name))
          = rs.flatMap fun q => q.separated (helper q.name) :=
        List.flatMap_congr fun q hq => by rw [hlater q hq]
      rw [List.foldl_cons, hresult, List.flatMap_cons, Function.update_self, hrest,
        List.append_assoc]
    · rcases List.mem_cons.1 hq with rfl | hq
      · rw [Function.update_self]
        exact fresh_not_mem_taken g q.name
      · rw [hlater q hq]
        exact fun h => hfresh q hq hrec (taken_subset_eliminateRule hg.nodup hr h)
    · refine List.pairwise_cons.2 ⟨fun q hq hrec hrec' => ?_, hpairwise.imp_of_mem ?_⟩
      · -- The name of the first helper is in use when the later ones are found.
        rw [Function.update_self, hlater q hq]
        intro heq
        have hnames := (names_eliminateRule_perm (g := g) (Rule.isRecursive_iff.1 hrec)).mem_iff.2
          List.mem_cons_self
        exact hfresh q hq hrec' (mem_taken.2 (.inl (heq ▸ hnames)))
      · intro q q' hq hq' h
        rwa [hlater q hq, hlater q' hq']

theorem exists_helpers (hg : g.WellFormed) :
    ∃ helper : String → String,
      g.eliminateLeftRecursion.rules = g.rules.flatMap (fun r => r.separated (helper r.name)) ∧
      (∀ r ∈ g.rules, r.IsRecursive → helper r.name ∉ g.taken) ∧
      g.rules.Pairwise fun r q => r.IsRecursive → q.IsRecursive → helper r.name ≠ helper q.name :=
  exists_helpers_foldl_eliminateRule hg (List.nil_append _).symm

/-- A name that is not in use, and does not stand for the empty word, is the name of no symbol. -/
theorem name_ne_of_not_mem_taken (hg : g.WellFormed) (hname : name ∉ g.taken)
    (hspelled : ¬ SpellsEpsilon name) {s : Symbol} (hs : g.Uses s ∨ s = .endMarker) :
    s.name ≠ name := by
  rintro rfl
  rw [mem_taken, not_or, not_or] at hname
  obtain ⟨hnonterminal, hmarker, hterminal⟩ := hname
  rcases hs with hs | rfl
  · cases s with
    | terminal a => exact hterminal (by simpa [Uses, Symbol.name] using hs)
    | nonterminal other => exact hnonterminal (hs.admits hg)
    | epsilon => exact hspelled (.inl rfl)
    | endMarker => exact hmarker rfl
  · exact hmarker rfl

/-- Each rule gives way to its new rules, in the order of the old ones. A rule that is not recursive
stays. The helpers of the others have different names, and none of them is the name of a symbol of
the old grammar. -/
theorem rules_eliminateLeftRecursion (hg : g.Attainable) :
    ∃ helper : String → String,
      g.eliminateLeftRecursion.start = g.start ∧
      g.eliminateLeftRecursion.rules = g.rules.flatMap (fun r => r.separated (helper r.name)) ∧
      (∀ r ∈ g.rules, r.IsRecursive → ∀ s, g.Uses s ∨ s = .endMarker → s.name ≠ helper r.name) ∧
      g.rules.Pairwise fun r q =>
        r.IsRecursive → q.IsRecursive → helper r.name ≠ helper q.name := by
  obtain ⟨helper, hrules, hfresh, hpairwise⟩ := exists_helpers hg.wellFormed
  refine ⟨helper, (within_eliminateLeftRecursion hg.wellFormed).start, hrules,
    fun r hr hrec s hs hname => ?_, hpairwise⟩
  have hmem : ⟨helper r.name, [r.trailing (helper r.name), [.epsilon]]⟩
      ∈ g.eliminateLeftRecursion.rules := by
    rw [hrules]
    exact List.mem_flatMap.2 ⟨r, hr, by simp [Rule.separated_of_isRecursive hrec]⟩
  have hspelled : (Symbol.nonterminal (helper r.name)).Spelled :=
    ((hg.eliminateLeftRecursion.spelled.rules _ hmem).alternatives _ List.mem_cons_self).of_mem
      (by simp [Rule.trailing_eq]) (by simp)
  exact name_ne_of_not_mem_taken hg.wellFormed (hfresh r hr hrec) hspelled.2 hs hname

/-- A grammar in which the primed name is taken, with an alternative for the empty word, with two
recursive alternatives of one rule and with a rule that is not recursive. -/
theorem rules_eliminateLeftRecursion_of_text :
    let g : Grammar :=
      { rules := [⟨"S", [[.nonterminal "S", .terminal "a"], [.nonterminal "S'"], [.epsilon]]⟩,
          ⟨"S'", [[.nonterminal "S'", .terminal "b"], [.terminal "d"],
            [.nonterminal "S'", .nonterminal "A"]]⟩, ⟨"A", [[.terminal "a"]]⟩]
        start := "S" }
    ofText "S -> S a | S' | ε; S' -> S' b | d | S' A; A -> a" = .ok g ∧
      ∃ first second : String, first ≠ second ∧ first ∉ g.names ∧ second ∉ g.names ∧
        g.eliminateLeftRecursion.rules =
          [⟨"S", [[.nonterminal "S'", .nonterminal first], [.nonterminal first]]⟩,
            ⟨first, [[.terminal "a", .nonterminal first], [.epsilon]]⟩,
            ⟨"S'", [[.terminal "d", .nonterminal second]]⟩,
            ⟨second, [[.terminal "b", .nonterminal "A", .nonterminal second], [.epsilon]]⟩,
            ⟨"A", [[.terminal "a"]]⟩] := by
  intro g
  have hg : ofText "S -> S a | S' | ε; S' -> S' b | d | S' A; A -> a" = .ok g := by
    set_option maxRecDepth 2000 in rfl
  obtain ⟨helper, -, hrules, hfresh, hpairwise⟩ := rules_eliminateLeftRecursion (.ofText hg)
  have hnames : ∀ r ∈ g.rules, r.IsRecursive → helper r.name ∉ g.names := fun r hr hrec hmem =>
    hfresh r hr hrec (.nonterminal (helper r.name)) (.inl (.inr ⟨_, hmem, rfl⟩)) rfl
  refine ⟨hg, helper "S", helper "S'", ?_, ?_, ?_, hrules⟩
  · exact List.rel_of_pairwise_cons hpairwise (List.mem_cons_self ..) (by decide) (by decide)
  · exact hnames _ List.mem_cons_self (by decide)
  · exact hnames ⟨"S'", _⟩ (List.mem_cons_of_mem _ List.mem_cons_self) (by decide)

/-! ## What left recursion remains -/

theorem eliminateLeftRecursion_of_not_isRecursive (h : ∀ r ∈ g.rules, ¬ r.IsRecursive) :
    g.eliminateLeftRecursion = g := by
  have hfold : ∀ rs : List Rule, (∀ r ∈ rs, ¬ r.IsRecursive) → rs.foldl eliminateRule g = g := by
    intro rs hrs
    induction rs with
    | nil => rfl
    | cons r rs ih =>
      have hr := not_not.1 (mt Rule.isRecursive_iff.2 (hrs r List.mem_cons_self))
      rw [List.foldl_cons, eliminateRule_of_nil hr]
      exact ih fun q hq => hrs q (List.mem_cons_of_mem _ hq)
  exact hfold g.rules h

theorem length_flatMap_separated (helper : String → String) (rs : List Rule) :
    (rs.flatMap fun r => r.separated (helper r.name)).length
      = rs.length + rs.countP (·.IsRecursive) := by
  induction rs with
  | nil => rfl
  | cons r rs ih =>
    rw [List.flatMap_cons, List.length_append, ih, List.length_cons]
    by_cases h : r.IsRecursive
    · rw [Rule.separated_of_isRecursive h, List.countP_cons_of_pos (by simpa using h)]
      simp only [List.length_cons, List.length_nil]
      omega
    · rw [Rule.separated_of_not h, List.countP_cons_of_neg (by simpa using h)]
      simp only [List.length_cons, List.length_nil]
      omega

/-- Another round changes a grammar just if one of its rules is recursive. -/
theorem same_eliminateLeftRecursion_iff (hg : g.WellFormed) :
    g.eliminateLeftRecursion.same g ↔ ∀ r ∈ g.rules, ¬ r.IsRecursive := by
  refine ⟨fun hsame => ?_, fun h => by simp [eliminateLeftRecursion_of_not_isRecursive h, same]⟩
  obtain ⟨helper, hrules, -⟩ := exists_helpers hg
  have hlength := length_flatMap_separated helper g.rules
  have heq : g.eliminateLeftRecursion.rules = g.rules := by simp_all [same]
  rw [← hrules, heq] at hlength
  have hnone : g.rules.countP (·.IsRecursive) = 0 := by omega
  simpa using List.countP_eq_zero.1 hnone

/-- The recursive rules that remain are those of the helpers of circular rules. -/
theorem exists_helpers_of_circular (hg : g.WellFormed) :
    ∃ helper : String → String, (∀ r ∈ g.rules, r.Circular → helper r.name ∉ g.names) ∧
      ∀ q, (q ∈ g.eliminateLeftRecursion.rules ∧ q.IsRecursive) ↔
        ∃ r ∈ g.rules, r.Circular ∧
          q = ⟨helper r.name, [[.nonterminal (helper r.name)], [.epsilon]]⟩ := by
  obtain ⟨helper, hrules, hfresh, -⟩ := exists_helpers hg
  have hnames : ∀ r ∈ g.rules, r.IsRecursive → helper r.name ∉ g.names := fun r hr hrec hmem =>
    hfresh r hr hrec (mem_taken.2 (.inl hmem))
  refine ⟨helper, fun r hr hcircular => hnames r hr hcircular.1, fun q => ⟨?_, ?_⟩⟩
  · rintro ⟨hq, hrecursive⟩
    obtain ⟨r, hr, hq⟩ := List.mem_flatMap.1 (hrules ▸ hq)
    by_cases hrec : r.IsRecursive
    · have hne : helper r.name ≠ r.name := fun heq =>
        hnames r hr hrec (by rw [heq]; exact name_mem_names hr)
      have htail := not_mem_tail hg hr (hfresh r hr hrec)
      exact ⟨r, hr, (Rule.isRecursive_of_mem_separated hrec hne htail hq).1 hrecursive⟩
    · rw [Rule.separated_of_not hrec, List.mem_singleton] at hq
      exact absurd (hq ▸ hrecursive) hrec
  · rintro ⟨r, hr, hcircular, rfl⟩
    refine ⟨?_, _, List.mem_cons_self, rfl⟩
    rw [hrules]
    exact List.mem_flatMap.2 ⟨r, hr, Rule.mem_separated_of_circular hcircular _⟩

/-- The only left recursion of a new rule is that of a helper which begins with itself, as nothing
follows the nonterminal in the recursive alternatives of the old rule. Where there is no such rule,
left recursion is gone and another round changes nothing. -/
theorem recursion_eliminateLeftRecursion (hg : g.Attainable) :
    (∀ q ∈ g.eliminateLeftRecursion.rules, q.IsRecursive →
      q.name ∉ g.names ∧ q.alternatives = [[.nonterminal q.name], [.epsilon]]) ∧
    ((∀ q ∈ g.eliminateLeftRecursion.rules, ¬ q.IsRecursive) ↔ ∀ r ∈ g.rules, ¬ r.Circular) ∧
    (g.eliminateLeftRecursion.eliminateLeftRecursion.same g.eliminateLeftRecursion ↔
      ∀ r ∈ g.rules, ¬ r.Circular) := by
  obtain ⟨helper, hnames, hmem⟩ := exists_helpers_of_circular hg.wellFormed
  have hgone : (∀ q ∈ g.eliminateLeftRecursion.rules, ¬ q.IsRecursive) ↔
      ∀ r ∈ g.rules, ¬ r.Circular :=
    ⟨fun h r hr hcircular =>
        have ⟨hq, hrec⟩ := (hmem _).2 ⟨r, hr, hcircular, rfl⟩
        h _ hq hrec,
      fun h q hq hrec =>
        have ⟨r, hr, hcircular, _⟩ := (hmem q).1 ⟨hq, hrec⟩
        h r hr hcircular⟩
  refine ⟨fun q hq hrec => ?_, hgone, ?_⟩
  · obtain ⟨r, hr, hcircular, rfl⟩ := (hmem q).1 ⟨hq, hrec⟩
    exact ⟨hnames r hr hcircular, rfl⟩
  · rw [same_eliminateLeftRecursion_iff (wellFormed_eliminateLeftRecursion hg.wellFormed), hgone]

/-- A rule with an alternative that is its nonterminal alone, and with another recursive one. -/
theorem recursion_eliminateLeftRecursion_of_text :
    let g : Grammar :=
      { rules := [⟨"S", [[.nonterminal "S", .nonterminal "A"], [.nonterminal "S"],
            [.terminal "a"]]⟩, ⟨"A", [[.nonterminal "A", .terminal "b"], [.epsilon]]⟩]
        start := "S" }
    ofText "S -> S A | S | a; A -> A b | ε" = .ok g ∧ (∀ r ∈ g.rules, ¬ r.Circular) ∧
      (∀ q ∈ g.eliminateLeftRecursion.rules, ¬ q.IsRecursive) ∧
      g.eliminateLeftRecursion.eliminateLeftRecursion.same g.eliminateLeftRecursion := by
  intro g
  have hg : ofText "S -> S A | S | a; A -> A b | ε" = .ok g := rfl
  have hcircular : ∀ r ∈ g.rules, ¬ r.Circular := by decide
  obtain ⟨-, hgone, hagain⟩ := recursion_eliminateLeftRecursion (.ofText hg)
  exact ⟨hg, hcircular, hgone.2 hcircular, hagain.2 hcircular⟩

/-- The helper of a circular rule begins with itself, and another round adds a helper for it. -/
theorem recursive_helper_of_circular_rule :
    let g : Grammar :=
      { rules := [⟨"A", [[.nonterminal "A"], [.terminal "b"]]⟩], start := "A" }
    ofText "A -> A | b" = .ok g ∧
      g.eliminateLeftRecursion.rules =
        [⟨"A", [[.terminal "b", .nonterminal "A'"]]⟩, ⟨"A'", [[.nonterminal "A'"], [.epsilon]]⟩] ∧
      (∃ q ∈ g.eliminateLeftRecursion.rules, q.IsRecursive) ∧
      g.eliminateLeftRecursion.eliminateLeftRecursion.rules =
        [⟨"A", [[.terminal "b", .nonterminal "A'"]]⟩, ⟨"A'", [[.nonterminal "A''"]]⟩,
          ⟨"A''", [[.nonterminal "A''"], [.epsilon]]⟩] ∧
      g.eliminateLeftRecursion.eliminateLeftRecursion.same g.eliminateLeftRecursion = false := by
  intro g
  have hg : ofText "A -> A | b" = .ok g := rfl
  have hrules : g.eliminateLeftRecursion.rules = [⟨"A", [[.terminal "b", .nonterminal "A'"]]⟩,
      ⟨"A'", [[.nonterminal "A'"], [.epsilon]]⟩] := by
    simp only [g]
    cbv
  have hagain : g.eliminateLeftRecursion.eliminateLeftRecursion.rules =
      [⟨"A", [[.terminal "b", .nonterminal "A'"]]⟩, ⟨"A'", [[.nonterminal "A''"]]⟩,
        ⟨"A''", [[.nonterminal "A''"], [.epsilon]]⟩] := by
    simp only [g]
    cbv
  refine ⟨hg, hrules, ?_, hagain, ?_⟩
  · rw [hrules]
    decide
  · simp [same, hrules, hagain]

end Grammar

end PredictiveParsing
