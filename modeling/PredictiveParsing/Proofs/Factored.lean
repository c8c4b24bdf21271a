import PredictiveParsing.Proofs.Attainable

/-!
# Left factoring finishes its job

Each group of alternatives leaves one alternative behind, which begins like the group. As different
groups begin with different symbols, the alternatives of a rule that has been factored do so too.
The added rules wait in the queue, so at any time a rule is either factored or still to come, and in
the end all are factored. A rule that is factored already has groups of one only and stays as it is.
So a second round of factoring changes nothing.

## Main definitions

* `Factored`: no two alternatives begin with the same symbol.
* `Grammar.Factors`: the names of the nonterminals in a queue are worked off.

## Main statements

* `Grammar.factored_factorGroups`: a rule is factored by its groups.
* `Grammar.factorQueue_of_factored`: there is nothing to do for factored rules.
* `Grammar.leftFactor_finishes`: the queue empties, all rules are factored, and a second round
  changes nothing.
-/

namespace PredictiveParsing

/-! ## Alternatives that begin alike -/

theorem Alternative.sharesLead_symm {p q : Alternative} (h : p.sharesLead q = true) :
    q.sharesLead p = true := by
  obtain ⟨s, hp, hq⟩ := sharesLead_iff.1 h
  exact sharesLead_iff.2 ⟨s, hq, hp⟩

theorem Alternative.sharesLead_trans {p q r : Alternative} (h : p.sharesLead q = true)
    (h' : q.sharesLead r = true) : p.sharesLead r = true := by
  obtain ⟨s, hp, hq⟩ := sharesLead_iff.1 h
  obtain ⟨s', hq', hr⟩ := sharesLead_iff.1 h'
  obtain rfl := Option.some.inj (hq.symm.trans hq')
  exact sharesLead_iff.2 ⟨s, hp, hr⟩

/-- No two alternatives begin with the same symbol. Those for the empty word may be repeated. -/
def Factored (ps : List Alternative) : Prop :=
  ps.Pairwise fun p q => ∀ s, p.head? = some s → q.head? = some s → s = .epsilon

theorem factored_iff {ps : List Alternative} :
    Factored ps ↔ ps.Pairwise fun p q => ¬ Alternative.sharesLead p q := by
  have hlead : ∀ (p : Alternative) s, p.lead = some s ↔ p.head? = some s ∧ s ≠ .epsilon := by
    intro p s
    rw [Alternative.lead_eq_some, and_comm, List.head?_eq_some_iff]
  refine List.Pairwise.iff fun p q => ?_
  simp only [Alternative.sharesLead_iff, hlead]
  grind

/-! ## Groups -/

section Groups

variable {α : Type} {related : α → α → Bool} {xs : List α}

/-- Elements of different groups are not related. -/
theorem pairwise_groupRelated
    (htrans : ∀ {x y z}, related x y → related y z → related x z) (xs : List α) :
    (groupRelated related xs).Pairwise fun xs ys => ∀ x ∈ xs, ∀ y ∈ ys, ¬ related x y := by
  fun_induction groupRelated related xs with
  | case1 => exact .nil
  | case2 x xs ih =>
    refine List.pairwise_cons.2 ⟨fun group hgroup y hy z hz hyz => ?_, ih⟩
    have hz : z ∈ unrelated related x xs := mem_groupRelated_iff.1 ⟨group, hgroup, hz⟩
    have hxz : ¬ related x z := by simpa using (List.mem_filter.1 hz).2
    rcases List.mem_cons.1 hy with rfl | hy
    · exact hxz hyz
    · exact hxz (htrans (List.mem_filter.1 hy).2 hyz)

/-- Elements that are not related to each other stay alone. -/
theorem groupRelated_of_pairwise (h : xs.Pairwise fun x y => ¬ related x y) :
    groupRelated related xs = xs.map ([·]) := by
  induction xs with
  | nil => rw [groupRelated, List.map_nil]
  | cons x xs ih =>
    obtain ⟨hx, hxs⟩ := List.pairwise_cons.1 h
    have hnone : xs.filter (related x) = [] := List.filter_eq_nil_iff.2 hx
    have hall : unrelated related x xs = xs := List.filter_eq_self.2 fun y hy => by simp [hx y hy]
    rw [groupRelated, hnone, hall, ih hxs, List.map_cons]

end Groups

/-- Alternatives of different groups of a rule do not begin with the same symbol. -/
theorem pairwise_leadGroups (ps : List Alternative) :
    ((leadGroups ps).map (·.map Prod.fst)).Pairwise fun ps qs =>
      ∀ p ∈ ps, ∀ q ∈ qs, ¬ Alternative.sharesLead p q := by
  refine List.pairwise_map.2 ((pairwise_groupRelated ?_ _).imp fun {xs ys} h => ?_)
  · exact fun {x y z} => Alternative.sharesLead_trans
  · intro p hp q hq
    obtain ⟨x, hx, rfl⟩ := List.mem_map.1 hp
    obtain ⟨y, hy, rfl⟩ := List.mem_map.1 hq
    exact h x hx y hy

/-- The groups of factored alternatives have one member each. -/
theorem leadGroups_of_factored {ps : List Alternative} (h : Factored ps) :
    (leadGroups ps).map (·.map Prod.fst) = ps.map ([·]) := by
  have hpairs : ps.zipIdx.Pairwise fun x y => ¬ Alternative.sharesLead x.1 y.1 := by
    have hps := factored_iff.1 h
    rwa [← List.zipIdx_map_fst 0 ps, List.pairwise_map] at hps
  rw [leadGroups, groupRelated_of_pairwise hpairs, List.map_map]
  conv_rhs => rw [← List.zipIdx_map_fst 0 ps, List.map_map]
  rfl

namespace Factoring

variable {f : Factoring} {name : String} {p : Alternative} {ps : List Alternative}

/-- A group leaves one alternative behind, which begins like the members of the group. -/
theorem exists_alternatives_addGroup (name : String) (f : Factoring)
    (h : ∀ q ∈ ps, Alternative.sharesLead p q) :
    ∃ q, (f.addGroup name (p :: ps)).alternatives = f.alternatives ++ [q] ∧
      Alternative.lead q = Alternative.lead p := by
  cases ps with
  | nil => exact ⟨p, rfl, rfl⟩
  | cons q qs =>
    obtain ⟨s, hall⟩ := Alternative.exists_lead_of_sharesLead h
    have hp := hall p List.mem_cons_self
    obtain ⟨t, ht⟩ := sharedPrefix_of_lead (List.cons_ne_nil _ _) hall
    refine ⟨_, congrArg alternatives (addGroup_of_ne name f (by simp)), ?_⟩
    rw [ht, hp]
    exact Alternative.lead_eq_some.2 ⟨(Alternative.lead_eq_some.1 hp).1, _, rfl⟩

/-- If the alternatives so far and the groups to come all begin differently, so do the alternatives
that the groups leave behind. -/
theorem factored_foldl_addGroup {groups : List (List Alternative)}
    (hgroups : ∀ group ∈ groups, ∃ p ps, group = p :: ps ∧ ∀ q ∈ ps, Alternative.sharesLead p q)
    (h : (f.alternatives.map ([·]) ++ groups).Pairwise fun ps qs =>
      ∀ p ∈ ps, ∀ q ∈ qs, ¬ Alternative.sharesLead p q) :
    Factored (groups.foldl (addGroup name) f).alternatives := by
  induction groups generalizing f with
  | nil => simpa [factored_iff, List.pairwise_map] using h
  | cons group groups ih =>
    obtain ⟨p, ps, rfl, hps⟩ := hgroups group List.mem_cons_self
    obtain ⟨q, hq, hlead⟩ := exists_alternatives_addGroup name f hps
    refine ih (fun group hgroup => hgroups group (List.mem_cons_of_mem _ hgroup)) ?_
    -- What the group leaves behind takes its place.
    rw [hq, List.map_append, List.append_assoc, List.map_cons, List.map_nil, List.singleton_append]
    rw [List.pairwise_append, List.pairwise_cons] at h ⊢
    obtain ⟨hdone, ⟨hfirst, hrest⟩, hbetween⟩ := h
    refine ⟨hdone, ⟨fun rs hrs x hx r hr => ?_, hrest⟩, fun rs hrs qs hqs r hr x hx => ?_⟩
    · obtain rfl := List.mem_singleton.1 hx
      simpa only [Alternative.sharesLead, hlead] using hfirst rs hrs p List.mem_cons_self r hr
    · rcases List.mem_cons.1 hqs with rfl | hqs
      · obtain rfl := List.mem_singleton.1 hx
        simpa only [Alternative.sharesLead, hlead] using
          hbetween rs hrs _ List.mem_cons_self r hr p List.mem_cons_self
      · exact hbetween rs hrs qs (List.mem_cons_of_mem _ hqs) r hr x hx

/-- Groups of one stay as they are. -/
theorem foldl_addGroup_singletons (name : String) (f : Factoring) (ps : List Alternative) :
    (ps.map ([·])).foldl (addGroup name) f = { f with alternatives := f.alternatives ++ ps } := by
  induction ps generalizing f with
  | nil => simp
  | cons p ps ih =>
    rw [List.map_cons, List.foldl_cons, ih]
    simp [addGroup]

end Factoring

namespace Grammar

variable {g h : Grammar} {r : Rule} {queue : List Rule}

/-! ## One rule -/

/-- A rule is factored by its groups. -/
theorem factored_factorGroups (g : Grammar) (r : Rule) :
    Factored (g.factorGroups r).alternatives :=
  Factoring.factored_foldl_addGroup (fun _ => exists_cons_of_mem_leadGroups)
    (pairwise_leadGroups r.alternatives)

/-- The alternatives that a nonterminal has can be given to it again. -/
theorem setAlternatives_self (hg : g.names.Nodup) (hr : r ∈ g.rules) :
    g.setAlternatives r.name r.alternatives = g := by
  obtain ⟨done, rs, hrules⟩ := List.append_of_mem hr
  have hset := rules_setAlternatives_of_append hrules (not_mem_of_rules_eq hg hrules).2
    r.alternatives
  exact eq_of_rules (hset.trans hrules.symm) start_setAlternatives minted_setAlternatives

/-- A factored rule stays as it is. -/
theorem factorRule_of_factored (hg : g.names.Nodup) (hr : r ∈ g.rules)
    (h : Factored r.alternatives) : g.factorRule r = (g, []) := by
  have hgroups : g.factorGroups r = ⟨g, r.name, r.alternatives, []⟩ := by
    rw [factorGroups, leadGroups_of_factored h, Factoring.foldl_addGroup_singletons,
      List.nil_append]
  simp only [factorRule, hgroups, setAlternatives_self hg hr]

/-! ## All rules -/

/-- There is nothing to do for factored rules. -/
theorem factorQueue_of_factored (hg : g.names.Nodup)
    (hqueue : ∀ r ∈ queue, r ∈ g.rules ∧ Factored r.alternatives) : g.factorQueue queue = g := by
  induction queue with
  | nil => rw [factorQueue]
  | cons r queue ih =>
    obtain ⟨hr, hfactored⟩ := hqueue r List.mem_cons_self
    rw [factorQueue, factorRule_of_factored hg hr hfactored, List.append_nil]
    exact ih fun q hq => hqueue q (List.mem_cons_of_mem _ hq)

/-- Each rule is factored or waits in the queue until it is. -/
theorem factored_factorQueue (hg : g.WellFormed) (hnodup : (queue.map Rule.name).Nodup)
    (hqueue : ∀ r ∈ queue, r ∈ g.rules)
    (hrest : ∀ r ∈ g.rules, Factored r.alternatives ∨ r ∈ queue) :
    ∀ r ∈ (g.factorQueue queue).rules, Factored r.alternatives := by
  fun_induction factorQueue g queue with
  | case1 g => exact fun r hr => (hrest r hr).resolve_right List.not_mem_nil
  | case2 g r queue ih =>
    have hr := hqueue r List.mem_cons_self
    obtain ⟨hnodup', hqueue'⟩ := queue_factorRule hg hnodup hqueue
    refine ih (wellFormed_factorRule hg hr) hnodup' hqueue' fun q hq => ?_
    have hwf := wellFormed_factorRule hg hr
    have hself : ⟨r.name, (g.factorGroups r).alternatives⟩ ∈ (g.factorRule r).1.rules :=
      mem_rules_setAlternatives_self ((factorRule_correct hg hr).1.name_mem hr)
    by_cases hne : q.name = r.name
    · obtain rfl := List.inj_on_of_nodup_map hwf.nodup hq hself hne
      exact .inl (factored_factorGroups g r)
    · replace hq := (mem_rules_of_setAlternatives hq).resolve_left fun h => hne (h.2 ▸ rfl)
      rcases List.mem_append.1 ((factorRule_correct hg hr).1.rules.mem_iff.1 hq) with hq | hq
      · exact .inr (List.mem_append_right _ hq)
      · refine (hrest q hq).imp_right fun hq => ?_
        rcases List.mem_cons.1 hq with rfl | hq
        · exact absurd rfl hne
        · exact List.mem_append_left _ hq

/-! ## The queue of names -/

/-- The names of the nonterminals in a queue are worked off in a number of steps. A nonterminal with
factored alternatives is passed over. Otherwise it is factored with the alternatives that it has by
then, and the new nonterminals go to the end of the queue. -/
inductive Factors : Grammar → List String → Nat → Grammar → Prop
  | done (g : Grammar) : Factors g [] 0 g
  | pass {g h : Grammar} {name : String} {names : List String} {n : Nat}
      (hname : Factored (g.alternatives name)) (hrest : Factors g names n h) :
      Factors g (name :: names) (n + 1) h
  | factor {g h : Grammar} {name : String} {names : List String} {n : Nat}
      (hname : ¬ Factored (g.alternatives name))
      (hrest : Factors (g.factorRule ⟨name, g.alternatives name⟩).1
        (names ++ (g.factorRule ⟨name, g.alternatives name⟩).2.map Rule.name) n h) :
      Factors g (name :: names) (n + 1) h

/-- The queue empties after no more steps than its rules weigh. -/
theorem exists_factors (hg : g.WellFormed) (hnodup : (queue.map Rule.name).Nodup)
    (hqueue : ∀ r ∈ queue, r ∈ g.rules) :
    ∃ n ≤ totalWeight queue, g.Factors (queue.map Rule.name) n (g.factorQueue queue) := by
  fun_induction factorQueue g queue with
  | case1 g => exact ⟨0, Nat.zero_le _, .done g⟩
  | case2 g r queue ih =>
    have hr := hqueue r List.mem_cons_self
    obtain ⟨hnodup', hqueue'⟩ := queue_factorRule hg hnodup hqueue
    obtain ⟨n, hn, hsteps⟩ := ih (wellFormed_factorRule hg hr) hnodup' hqueue'
    have hrule : (⟨r.name, g.alternatives r.name⟩ : Rule) = r := by rw [hg.alternatives_eq hr]
    refine ⟨n + 1, ?_, ?_⟩
    · have hlt := weight_factorRule_lt g r
      rw [totalWeight_append] at hn
      simp only [totalWeight, List.map_cons, total_cons] at hn hlt ⊢
      omega
    · by_cases hfactored : Factored r.alternatives
      · rw [factorRule_of_factored hg.nodup hr hfactored, List.append_nil] at hsteps ⊢
        exact .pass (by rwa [hg.alternatives_eq hr]) hsteps
      · refine .factor (by rwa [hg.alternatives_eq hr]) ?_
        rw [hrule, ← List.map_append]
        exact hsteps

/-- The queue of left factoring empties after finitely many steps. Then no nonterminal has two
alternatives that begin with the same symbol, other than the one for the empty word, and left
factoring once more changes nothing. -/
theorem leftFactor_finishes (hg : g.Attainable) :
    (∃ n ≤ totalWeight g.rules, g.Factors g.names n g.leftFactor) ∧
      (∀ name, Factored (g.leftFactor.alternatives name)) ∧
      g.leftFactor.leftFactor = g.leftFactor := by
  have hwf := hg.wellFormed
  have hresult := (leftFactor_correct hwf).1
  have hfactored : ∀ r ∈ g.leftFactor.rules, Factored r.alternatives :=
    factored_factorQueue hwf hwf.nodup (fun _ hr => hr) fun _ hr => .inr hr
  refine ⟨exists_factors hwf hwf.nodup fun _ hr => hr, fun name => ?_, ?_⟩
  · by_cases hname : name ∈ g.leftFactor.names
    · obtain ⟨r, hr, rfl⟩ := mem_names.1 hname
      rw [hresult.alternatives_eq hr]
      exact hfactored r hr
    · rw [alternatives_eq_nil hname]
      exact .nil
  · exact factorQueue_of_factored hresult.nodup fun r hr => ⟨hr, hfactored r hr⟩

/-- Alternatives that begin one another, one of them twice. -/
theorem leftFactor_finishes_of_text :
    let g : Grammar :=
      { rules := [⟨"S", [[.terminal "a", .terminal "b", .terminal "c"],
          [.terminal "a", .terminal "b"], [.terminal "a"], [.terminal "a", .terminal "b"]]⟩]
        start := "S" }
    let h : Grammar :=
      { rules := [⟨"S", [[.terminal "a", .nonterminal "S'"]]⟩,
          ⟨"S'", [[.terminal "b", .nonterminal "S''"], [.epsilon]]⟩,
          ⟨"S''", [[.terminal "c"], [.epsilon], [.epsilon]]⟩]
        start := "S" }
    ofText "S -> a b c | a b | a | a b" = .ok g ∧ g.leftFactor = h ∧
      (∃ n ≤ totalWeight g.rules, g.Factors ["S"] n h) ∧ (∀ name, Factored (h.alternatives name)) ∧
      h.leftFactor = h := by
  intro g h
  have hg : ofText "S -> a b c | a b | a | a b" = .ok g := by
    set_option maxRecDepth 2000 in rfl
  have hresult : g.leftFactor = h := by
    simp only [g, h]
    cbv
  obtain ⟨hsteps, hfactored, hagain⟩ := leftFactor_finishes (.ofText hg)
  rw [hresult] at hsteps hfactored hagain
  exact ⟨hg, hresult, hsteps, hfactored, hagain⟩

end Grammar

end PredictiveParsing
