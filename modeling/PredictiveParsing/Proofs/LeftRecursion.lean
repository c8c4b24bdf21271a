import PredictiveParsing.Grammar.LeftRecursion
import PredictiveParsing.Proofs.Language
import PredictiveParsing.Proofs.WellFormed

/-!
# Languages without left recursion

The helper of a rule that was freed of left recursion derives any number of copies of the joined
tails. So the nonterminal derives nothing new, since it could take up the tails one by one before,
from the last to the first. It loses nothing if only one of its recursive alternatives grows, as the
tails of the others spell the empty word.

## Main definitions

* `Rule.tail`: what follows the nonterminal in its recursive alternatives, joined.
* `Rule.growing`: the recursive alternatives that have a further symbol.

## Main statements

* `Grammar.within_eliminateLeftRecursion`: no nonterminal gets a new word.
* `Grammar.covers_eliminateLeftRecursion`: no word is lost if each nonterminal has at most one
  growing alternative.
-/

namespace PredictiveParsing

open Computability

namespace Rule

/-- What follows the nonterminal in its recursive alternatives, joined. -/
def tail (r : Rule) : List Symbol := r.recursive.flatMap List.tail

/-- The alternatives that begin with the nonterminal and have a further symbol that is not
`epsilon`. -/
def growing (r : Rule) : List Alternative :=
  r.recursive.filter fun p => !Alternative.isEpsilon p.tail

theorem trailing_eq (r : Rule) (helper : String) :
    r.trailing helper = eraseEpsilon r.tail ++ [.nonterminal helper] := by
  simp [trailing, tail, eraseEpsilon]

theorem mem_recursive {r : Rule} {p : Alternative} :
    p ∈ r.recursive ↔ p ∈ r.alternatives ∧ p = .nonterminal r.name :: p.tail := by
  cases p <;> simp [recursive, Alternative.beginsWith]

theorem mem_others_or_mem_recursive {r : Rule} {p : Alternative} (h : p ∈ r.alternatives) :
    p ∈ r.others ∨ p ∈ r.recursive := by
  cases hp : Alternative.beginsWith r.name p <;> simp [others, recursive, h, hp]

end Rule

theorem Alternative.eraseEpsilon_eq_nil {p : Alternative} (h : p.isEpsilon) :
    eraseEpsilon p = [] := by
  simpa [eraseEpsilon, isEpsilon] using h

/-- If at most one recursive alternative grows, each of them grows by nothing or by the joined
tails. -/
theorem Rule.eraseEpsilon_tail_of_growing {r : Rule} (h : r.growing.length ≤ 1) {p : Alternative}
    (hp : p ∈ r.recursive) :
    eraseEpsilon p.tail = [] ∨ eraseEpsilon p.tail = eraseEpsilon r.tail := by
  unfold growing at h
  unfold tail
  generalize r.recursive = ps at h hp
  induction ps with
  | nil => simp at hp
  | cons q ps ih =>
    by_cases hq : Alternative.isEpsilon q.tail
    · have hq' := Alternative.eraseEpsilon_eq_nil hq
      rw [List.filter_cons_of_neg (by simp [hq])] at h
      rcases List.mem_cons.1 hp with rfl | hp
      · exact .inl hq'
      · simpa [hq'] using ih h hp
    · -- No alternative after this one grows.
      rw [List.filter_cons_of_pos (by simp [hq]), List.length_cons] at h
      have hnone := List.length_eq_zero_iff.1 (Nat.le_zero.1 (Nat.le_of_succ_le_succ h))
      have hrest : ∀ x ∈ ps, eraseEpsilon x.tail = [] := fun x hx =>
        Alternative.eraseEpsilon_eq_nil (by simpa using List.filter_eq_nil_iff.1 hnone x hx)
      have hjoin : eraseEpsilon (ps.flatMap List.tail) = [] := by
        simpa [eraseEpsilon, List.filter_flatMap] using hrest
      rcases List.mem_cons.1 hp with rfl | hp
      · exact .inr (by simp [hjoin])
      · exact .inl (hrest p hp)

namespace Grammar

variable {g : Grammar} {r : Rule}

/-! ## One rule -/

/-- The name that is minted for the helper of a rule. -/
abbrev helper (g : Grammar) (r : Rule) : String := (g.fresh r.name).1

theorem eliminateRule_of_nil (h : r.recursive = []) : g.eliminateRule r = g := by
  simp [eliminateRule, h]

theorem eliminateRule_eq (h : r.recursive ≠ []) :
    g.eliminateRule r =
      ((g.fresh r.name).2.setAlternatives r.name (r.leading (g.helper r))).insertAfter r.name
        ⟨g.helper r, [r.trailing (g.helper r), [.epsilon]]⟩ := by
  simp [eliminateRule, h]

section Eliminate

variable (hg : g.WellFormed) (hr : r ∈ g.rules) (hrec : r.recursive ≠ [])
include hrec

theorem names_eliminateRule_perm : (g.eliminateRule r).names.Perm (g.helper r :: g.names) := by
  rw [eliminateRule_eq hrec]
  simpa using names_insertAfter_perm
    (g := (g.fresh r.name).2.setAlternatives r.name (r.leading (g.helper r)))

omit hrec in
theorem names_subset_eliminateRule : g.names ⊆ (g.eliminateRule r).names := by
  intro name hn
  by_cases hrec : r.recursive = []
  · rwa [eliminateRule_of_nil hrec]
  · exact (names_eliminateRule_perm hrec).mem_iff.2 (List.mem_cons_of_mem _ hn)

theorem mem_rules_eliminateRule {s : Rule} (hs : s ∈ g.rules) (hne : s.name ≠ r.name) :
    s ∈ (g.eliminateRule r).rules := by
  rw [eliminateRule_eq hrec, mem_rules_insertAfter]
  exact .inr (mem_rules_setAlternatives_of_ne (by simpa using hs) hne)

include hr in
theorem alternatives_eliminateRule (name : String) :
    (g.eliminateRule r).alternatives name =
      if name = g.helper r then [r.trailing (g.helper r), [.epsilon]]
      else if name = r.name then r.leading (g.helper r) else g.alternatives name := by
  have hname : r.name ∈ (g.fresh r.name).2.names := by simpa using name_mem_names hr
  have hnew : g.helper r ∉ ((g.fresh r.name).2.setAlternatives r.name
      (r.leading (g.helper r))).names := by
    simpa using fresh_not_mem_names g r.name
  rw [eliminateRule_eq hrec, alternatives_insertAfter hnew, alternatives_setAlternatives hname,
    alternatives_fresh]

omit hrec in
include hg hr in
theorem wellFormed_eliminateRule : (g.eliminateRule r).WellFormed := by
  by_cases hrec : r.recursive = []
  · rwa [eliminateRule_of_nil hrec]
  have hocc : ∀ p ∈ r.alternatives, ∀ s ∈ p, s ∈ g.occurrences := fun p hp s hs =>
    mem_occurrences.2 ⟨r, hr, p, hp, hs⟩
  refine hg.extend (fresh_not_mem_taken g r.name) (names_eliminateRule_perm hrec) ?_ ?_ ?_
  · rw [eliminateRule_eq hrec, head?_names_insertAfter (by simpa using hg.names_ne_nil)]
    simp
  · simp [eliminateRule_eq hrec]
  · intro s hs
    obtain ⟨q, hq, p, hp, hs⟩ := mem_occurrences.1 hs
    rw [eliminateRule_eq hrec, mem_rules_insertAfter] at hq
    rcases hq.imp_right mem_rules_of_setAlternatives with rfl | ⟨-, rfl⟩ | hq
    · rcases List.mem_pair.1 hp with rfl | rfl
      · rw [Rule.trailing_eq] at hs
        rcases List.mem_append.1 hs with hs | hs
        · obtain ⟨a, ha, hs⟩ := List.mem_flatMap.1 (List.mem_of_mem_filter hs)
          exact .inr (.inr (hocc a (Rule.mem_recursive.1 ha).1 s (List.mem_of_mem_tail hs)))
        · exact .inr (.inl (List.mem_singleton.1 hs))
      · exact .inl (List.mem_singleton.1 hs)
    · obtain ⟨a, ha, rfl⟩ := List.mem_map.1 hp
      rcases List.mem_append.1 hs with hs | hs
      · split at hs
        · simp at hs
        · exact .inr (.inr (hocc a (List.mem_of_mem_filter ha) s hs))
      · exact .inr (.inl (List.mem_singleton.1 hs))
    · exact .inr (.inr (mem_occurrences.2 ⟨q, by simpa using hq, p, hp, hs⟩))

end Eliminate

/-! ### No new words -/

/-- A nonterminal can take up a recursive tail at its end. -/
theorem family_mul_tail_le (hg : g.WellFormed) (hr : r ∈ g.rules) :
    g.family r.name * g.languageOf r.tail ≤ g.family r.name := by
  have hrecursive : ∀ p ∈ r.recursive, g.family r.name * g.languageOf p.tail ≤ g.family r.name := by
    intro p hp
    obtain ⟨hp, hcons⟩ := Rule.mem_recursive.1 hp
    calc g.family r.name * g.languageOf p.tail
        = g.languageOf p := by rw [← languageOf_cons_nonterminal, ← hcons]
      _ ≤ g.family r.name := languageOf_le_family (by rwa [hg.alternatives_eq hr])
  unfold Rule.tail
  generalize r.recursive = ps at hrecursive
  induction ps with
  | nil => simp [languageOf_nil]
  | cons p ps ih =>
    rw [List.flatMap_cons, languageOf_append, ← mul_assoc]
    calc g.family r.name * g.languageOf p.tail * g.languageOf (ps.flatMap List.tail)
        ≤ g.family r.name * g.languageOf (ps.flatMap List.tail) :=
          mul_le_mul' (hrecursive p List.mem_cons_self) le_rfl
      _ ≤ g.family r.name := ih fun q hq => hrecursive q (List.mem_cons_of_mem _ hq)

/-- The alternatives of a rule that are followed by the helper keep their words in front of it. -/
theorem meaning_leading {I : String → Language String} (helper : String) (p : Alternative) :
    meaning I ((if Alternative.isEpsilon p then [] else p) ++ [.nonterminal helper])
      = meaning I p * I helper := by
  rw [meaning_append]
  split
  next hp => rw [← meaning_eraseEpsilon p, Alternative.eraseEpsilon_eq_nil hp]; simp
  next => simp

/-- The languages that the nonterminals with the helper have in the old grammar. There the helper
stands for any number of copies of the joined tails. -/
def unrolled (g : Grammar) (r : Rule) : String → Language String :=
  Function.update g.family (g.helper r) (g.languageOf r.tail)∗

@[simp] theorem unrolled_helper : g.unrolled r (g.helper r) = (g.languageOf r.tail)∗ :=
  Function.update_self ..

theorem unrolled_of_ne {name : String} (h : name ≠ g.helper r) :
    g.unrolled r name = g.family name := Function.update_of_ne h ..

theorem meaning_unrolled {u : List Symbol} (h : .nonterminal (g.helper r) ∉ u) :
    meaning (g.unrolled r) u = g.languageOf u := meaning_update_family h _

theorem helper_not_mem (hg : g.WellFormed) {q : Rule} (hq : q ∈ g.rules) {p : Alternative}
    (hp : p ∈ q.alternatives) : .nonterminal (g.helper r) ∉ p := fun hs =>
  (hg.not_mem_occurrences (fresh_not_mem_taken g r.name)).2 (mem_occurrences.2 ⟨q, hq, p, hp, hs⟩)

/-- A name that is not in use is not in the joined tails. -/
theorem not_mem_tail (hg : g.WellFormed) (hr : r ∈ g.rules) {name : String}
    (hname : name ∉ g.taken) : .nonterminal name ∉ r.tail := by
  intro hs
  obtain ⟨p, hp, hs⟩ := List.mem_flatMap.1 hs
  exact (hg.not_mem_occurrences hname).2
    (mem_occurrences.2 ⟨r, hr, p, (Rule.mem_recursive.1 hp).1, List.mem_of_mem_tail hs⟩)

theorem satisfies_unrolled (hg : g.WellFormed) (hr : r ∈ g.rules) (hrec : r.recursive ≠ []) :
    (g.eliminateRule r).Satisfies (g.unrolled r) := by
  intro name p hp
  rw [alternatives_eliminateRule hr hrec] at hp
  split at hp
  next hname =>
    subst hname
    rw [unrolled_helper]
    rcases List.mem_pair.1 hp with rfl | rfl
    · rw [Rule.trailing_eq, meaning_append, meaning_eraseEpsilon,
        meaning_unrolled (not_mem_tail hg hr (fresh_not_mem_taken g r.name))]
      simpa [unrolled_helper] using mul_kstar_le_kstar
    · simp
  next hne =>
    rw [unrolled_of_ne hne]
    split at hp
    next hname =>
      subst hname
      obtain ⟨q, hq, rfl⟩ := List.mem_map.1 hp
      have hq := List.mem_of_mem_filter hq
      rw [meaning_leading, meaning_unrolled (helper_not_mem hg hr hq), unrolled_helper]
      exact mul_kstar_le (languageOf_le_family (by rwa [hg.alternatives_eq hr]))
        (family_mul_tail_le hg hr)
    next =>
      obtain ⟨q, hq, -, hpq⟩ := exists_rule_of_mem_alternatives hp
      rw [meaning_unrolled (helper_not_mem hg hq hpq)]
      exact languageOf_le_family hp

theorem ne_helper_of_mem_names {name : String} (h : name ∈ g.names) : name ≠ g.helper r := by
  rintro rfl
  exact fresh_not_mem_names g r.name h

theorem within_eliminateRule (hg : g.WellFormed) (hr : r ∈ g.rules) :
    (g.eliminateRule r).Within g := by
  by_cases hrec : r.recursive = []
  · rw [eliminateRule_of_nil hrec]
    exact .refl g
  exact .of_satisfies (by simp [eliminateRule_eq hrec]) names_subset_eliminateRule
    (fresh_not_mem_names g r.name) (satisfies_unrolled hg hr hrec)

/-! ### No words lost -/

/-- A nonterminal that repeats `u` any number of times and then stops derives the iterates of
`u`. -/
theorem family_eq_kstar {name : String} {u : List Symbol}
    (h : g.alternatives name = [u ++ [.nonterminal name], [.epsilon]]) :
    g.family name = (g.languageOf u)∗ := by
  have hstop : 1 ≤ g.family name := by
    have : g.languageOf [.epsilon] ≤ g.family name := languageOf_le_family (by simp [h])
    simpa [languageOf_eq_meaning] using this
  have hrepeat : g.languageOf u * g.family name ≤ g.family name := by
    rw [show g.languageOf u * g.family name = g.languageOf (u ++ [.nonterminal name]) from
      (languageOf_append g u _).symm]
    exact languageOf_le_family (by simp [h])
  have hle : (g.languageOf u)∗ ≤ g.family name := kstar_le_of_mul_le_right hstop hrepeat
  refine le_antisymm ?_ hle
  -- The iterates together with the other languages of the grammar satisfy it.
  have hsmaller : ∀ v, meaning (Function.update g.family name (g.languageOf u)∗) v
      ≤ g.languageOf v := by
    intro v
    rw [languageOf_eq_meaning g v]
    apply meaning_mono
    intro other _
    by_cases hother : other = name
    · simpa [hother] using hle
    · simp [hother]
  have hsat : g.Satisfies (Function.update g.family name (g.languageOf u)∗) := by
    intro other p hp
    by_cases hother : other = name
    · subst hother
      rcases List.mem_pair.1 (h ▸ hp) with rfl | rfl
      · rw [meaning_append, meaning_cons, meaning_nil, mul_one, Symbol.meaning,
          Function.update_self]
        exact (mul_le_mul' (hsmaller u) le_rfl).trans mul_kstar_le_kstar
      · simp
    · simpa [hother] using (hsmaller p).trans (languageOf_le_family hp)
  simpa using family_le hsat name

/-- The helper derives any number of copies of the joined tails. -/
theorem family_helper_eq_kstar (hr : r ∈ g.rules) (hrec : r.recursive ≠ []) :
    (g.eliminateRule r).family (g.helper r) = ((g.eliminateRule r).languageOf r.tail)∗ := by
  rw [← languageOf_eraseEpsilon]
  exact family_eq_kstar (by simp [alternatives_eliminateRule hr hrec, Rule.trailing_eq])

/-- In the new grammar, too, a nonterminal can take up the joined tails at its end. -/
theorem family_eliminateRule_mul_tail_le (hr : r ∈ g.rules) (hrec : r.recursive ≠ []) :
    (g.eliminateRule r).family r.name * (g.eliminateRule r).languageOf r.tail
      ≤ (g.eliminateRule r).family r.name := by
  have hleading : ∀ p ∈ (g.eliminateRule r).alternatives r.name,
      (g.eliminateRule r).languageOf p * (g.eliminateRule r).languageOf r.tail
        ≤ (g.eliminateRule r).languageOf p := by
    intro p hp
    rw [alternatives_eliminateRule hr hrec, if_neg (ne_helper_of_mem_names (name_mem_names hr)),
      if_pos rfl] at hp
    obtain ⟨q, -, rfl⟩ := List.mem_map.1 hp
    rw [languageOf_eq_meaning, meaning_leading, family_helper_eq_kstar hr hrec, mul_assoc]
    exact mul_le_mul' le_rfl kstar_mul_le_kstar
  rintro _ ⟨a, ha, b, hb, rfl⟩
  obtain ⟨p, hp, ha⟩ := mem_family_iff.1 ha
  exact languageOf_le_family hp (hleading p hp (Language.append_mem_mul ha hb))

theorem satisfies_family_eliminateRule (hg : g.WellFormed) (hr : r ∈ g.rules)
    (hrec : r.recursive ≠ []) (hgrow : r.growing.length ≤ 1) :
    g.Satisfies (g.eliminateRule r).family := by
  intro name p hp
  have hne : name ≠ g.helper r := ne_helper_of_mem_names (mem_names_of_mem_alternatives hp)
  by_cases hname : name = r.name
  · subst hname
    rw [hg.alternatives_eq hr] at hp
    rcases Rule.mem_others_or_mem_recursive hp with hp | hp
    · -- The helper may stop at once.
      have hmem : (if Alternative.isEpsilon p then [] else p) ++ [.nonterminal (g.helper r)]
          ∈ (g.eliminateRule r).alternatives r.name := by
        rw [alternatives_eliminateRule hr hrec, if_neg hne, if_pos rfl]
        exact List.mem_map.2 ⟨p, hp, rfl⟩
      have hstop : 1 ≤ (g.eliminateRule r).family (g.helper r) := by
        rw [family_helper_eq_kstar hr hrec]
        exact one_le_kstar
      calc meaning (g.eliminateRule r).family p
          ≤ meaning (g.eliminateRule r).family p * (g.eliminateRule r).family (g.helper r) :=
            le_mul_of_one_le_right' hstop
        _ ≤ (g.eliminateRule r).family r.name := by
            rw [← meaning_leading, ← languageOf_eq_meaning]
            exact languageOf_le_family hmem
    · rw [(Rule.mem_recursive.1 hp).2, ← languageOf_eq_meaning, languageOf_cons_nonterminal,
        ← languageOf_eraseEpsilon]
      rcases Rule.eraseEpsilon_tail_of_growing hgrow hp with hnil | htail
      · simp [hnil, languageOf_nil]
      · rw [htail, languageOf_eraseEpsilon]
        exact family_eliminateRule_mul_tail_le hr hrec
  · rw [← languageOf_eq_meaning]
    apply languageOf_le_family
    rwa [alternatives_eliminateRule hr hrec, if_neg hne, if_neg hname]

theorem covers_eliminateRule (hg : g.WellFormed) (hr : r ∈ g.rules)
    (hgrow : r.growing.length ≤ 1) : (g.eliminateRule r).Covers g := by
  by_cases hrec : r.recursive = []
  · rw [eliminateRule_of_nil hrec]
    exact .refl g
  exact .of_satisfies (by simp [eliminateRule_eq hrec]) names_subset_eliminateRule
    (satisfies_family_eliminateRule hg hr hrec hgrow)

/-! ## All rules -/

section Fold

variable {rs : List Rule}

/-- The rules that are still to be treated are untouched by the treatment of another one. -/
theorem mem_rules_eliminateRule_of_nodup (hnodup : ((r :: rs).map Rule.name).Nodup)
    (hrs : ∀ q ∈ r :: rs, q ∈ g.rules) : ∀ q ∈ rs, q ∈ (g.eliminateRule r).rules := by
  intro q hq
  have hmem := hrs q (List.mem_cons_of_mem _ hq)
  by_cases hrec : r.recursive = []
  · rwa [eliminateRule_of_nil hrec]
  · apply mem_rules_eliminateRule hrec hmem
    intro hname
    exact (List.nodup_cons.1 hnodup).1 (hname ▸ List.mem_map_of_mem hq)

theorem foldl_eliminateRule (hg : g.WellFormed) (hnodup : (rs.map Rule.name).Nodup)
    (hrs : ∀ r ∈ rs, r ∈ g.rules) :
    (rs.foldl eliminateRule g).WellFormed ∧ (rs.foldl eliminateRule g).Within g ∧
      ((∀ r ∈ rs, r.growing.length ≤ 1) → (rs.foldl eliminateRule g).Covers g) := by
  induction rs generalizing g with
  | nil => exact ⟨hg, .refl g, fun _ => .refl g⟩
  | cons r rs ih =>
    have hr := hrs r List.mem_cons_self
    obtain ⟨hwf, hwithin, hcovers⟩ := ih (wellFormed_eliminateRule hg hr)
      (List.nodup_cons.1 hnodup).2 (mem_rules_eliminateRule_of_nodup hnodup hrs)
    refine ⟨hwf, hwithin.trans (within_eliminateRule hg hr), fun hgrow => ?_⟩
    exact (hcovers fun q hq => hgrow q (List.mem_cons_of_mem _ hq)).trans
      (covers_eliminateRule hg hr (hgrow r List.mem_cons_self))

end Fold

theorem wellFormed_eliminateLeftRecursion (hg : g.WellFormed) :
    g.eliminateLeftRecursion.WellFormed :=
  (foldl_eliminateRule hg hg.nodup fun _ hr => hr).1

/-- No nonterminal gets a new word. -/
theorem within_eliminateLeftRecursion (hg : g.WellFormed) : g.eliminateLeftRecursion.Within g :=
  (foldl_eliminateRule hg hg.nodup fun _ hr => hr).2.1

/-- No word is lost if each nonterminal has at most one growing alternative. -/
theorem covers_eliminateLeftRecursion (hg : g.WellFormed)
    (hgrow : ∀ r ∈ g.rules, r.growing.length ≤ 1) : g.eliminateLeftRecursion.Covers g :=
  (foldl_eliminateRule hg hg.nodup fun _ hr => hr).2.2 hgrow

end Grammar

end PredictiveParsing
