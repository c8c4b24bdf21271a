import PredictiveParsing.Proofs.Cells
import PredictiveParsing.Proofs.HelperRules
import PredictiveParsing.Proofs.Notation

/-!
# How the empty word is written in alternatives

An alternative for the empty word should be the symbol `epsilon` alone. The reader leaves this
symbol out where an alternative has several tokens, so one that consists of nothing but such tokens
is left without symbols. The changes of a grammar make no further alternatives without symbols.

## Main definitions

* `Alternative.Canonical`: the empty word is written as `epsilon` alone, if at all.
* `Notation.RepeatsEpsilon`: tokens that spell the empty word more than once and nothing else.

## Main statements

* `Grammar.ChangesTo.nil_mem_alternatives`: a change makes no alternative without symbols.
* `Grammar.canonical_alternatives_ofText`: which alternatives are not canonical, and what conflicts
  come of them.
-/

namespace PredictiveParsing

/-! ## Two spellings of the empty word -/

namespace Alternative

/-- An alternative is the empty word alone, or it has symbols, all of them terminals and
nonterminals. -/
def Canonical (p : Alternative) : Prop :=
  p = [.epsilon] ∨
    p ≠ [] ∧ ∀ s ∈ p, (∃ a, s = .terminal a) ∨ ∃ name, s = .nonterminal name

/-- Two alternatives are the two ways to write the empty word. -/
def BothEmpty (p q : Alternative) : Prop :=
  p = [] ∧ q = [.epsilon] ∨ p = [.epsilon] ∧ q = []

variable {p q : Alternative}

theorem Spelled.canonical (h : p.Spelled) (hne : p ≠ []) : p.Canonical := by
  refine h.imp_right fun hsymbols => ⟨hne, fun s hs => ?_⟩
  have hspelled := hsymbols s hs
  cases s with
  | terminal a => exact .inl ⟨a, rfl⟩
  | nonterminal name => exact .inr ⟨name, rfl⟩
  | epsilon => exact hspelled.elim
  | endMarker => exact hspelled.elim

theorem not_canonical_nil : ¬ Canonical [] := by simp [Canonical]

/-- Alternatives that are spelled alike but for the empty word are the same or write it in two
ways. -/
theorem Spelled.eq_or_bothEmpty (hp : p.Spelled) (hq : q.Spelled)
    (h : eraseEpsilon p = eraseEpsilon q) : p = q ∨ p.BothEmpty q := by
  have herase : ∀ {u : Alternative}, (∀ s ∈ u, s.Spelled) → eraseEpsilon u = u := fun hu =>
    List.filter_eq_self.2 fun s hs => by
      cases s with
      | epsilon => exact (hu _ hs).elim
      | _ => rfl
  rcases hp with rfl | hp <;> rcases hq with rfl | hq
  · exact .inl rfl
  · rw [herase hq] at h
    exact .inr (.inr ⟨rfl, h.symm⟩)
  · rw [herase hp] at h
    exact .inr (.inl ⟨h, rfl⟩)
  · rw [herase hp, herase hq] at h
    exact .inl h

end Alternative

/-! ## The changes -/

/-- Something remains of an alternative behind its beginning. -/
theorem Alternative.remainder_ne_nil {shared p : Alternative} (h : shared <+: p) :
    p.remainder shared.length ≠ [] := by
  obtain ⟨rest, rfl⟩ := h
  rw [Alternative.remainder_append]
  split
  next => exact List.cons_ne_nil _ _
  next hrest => exact hrest

namespace Grammar

variable {g h : Grammar} {name : String}

theorem nil_mem_of_eliminateLeftRecursion (hg : g.WellFormed)
    (h : [] ∈ g.eliminateLeftRecursion.alternatives name) : [] ∈ g.alternatives name := by
  obtain ⟨q, hq, rfl, hnil⟩ := exists_rule_of_mem_alternatives h
  obtain ⟨helper, hrules, -⟩ := exists_helpers hg
  obtain ⟨r, hr, hq⟩ := List.mem_flatMap.1 (hrules ▸ hq)
  by_cases hrec : r.IsRecursive
  · -- All new alternatives but `epsilon` end with the helper.
    rw [Rule.separated_of_isRecursive hrec] at hq
    rcases List.mem_pair.1 hq with rfl | rfl
    · obtain ⟨p, -, hp⟩ := List.mem_map.1 hnil
      simp at hp
    · simp [Rule.trailing] at hnil
  · rw [Rule.separated_of_not hrec, List.mem_singleton] at hq
    subst hq
    rwa [hg.alternatives_eq hr]

theorem FactorStep.nil_mem_alternatives (hstep : g.FactorStep h)
    (hnil : [] ∈ h.alternatives name) : [] ∈ g.alternatives name := by
  cases hstep with
  | reorder _ _ _ _ halternatives => exact (halternatives name []).1 hnil
  | @extract _ _ extracted fresh members kept _ hx =>
    by_cases hfresh : name = fresh
    · rw [hfresh, hx.rest] at hnil
      obtain ⟨p, hp, hremainder⟩ := List.mem_map.1 hnil
      exact absurd hremainder (Alternative.remainder_ne_nil (sharedPrefix_begins hp))
    · by_cases hname : name = extracted
      · subst hname
        rcases (hx.mem_new []).1 hnil with hkept | hshared
        · exact (hx.mem_old []).2 (.inl hkept)
        · simp at hshared
      · rwa [hx.other name hname hfresh] at hnil

theorem FactorSteps.nil_mem_alternatives (hsteps : g.FactorSteps h)
    (hnil : [] ∈ h.alternatives name) : [] ∈ g.alternatives name := by
  induction hsteps with
  | refl => exact hnil
  | tail _ hstep ih => exact ih (hstep.nil_mem_alternatives hnil)

/-- A change makes no alternative without symbols. -/
theorem ChangesTo.nil_mem_alternatives (hgh : g.ChangesTo h) (hg : g.Attainable)
    (hnil : [] ∈ h.alternatives name) : [] ∈ g.alternatives name := by
  induction hgh with
  | refl => exact hnil
  | eliminateLeftRecursion hgh ih =>
    exact ih (nil_mem_of_eliminateLeftRecursion (hgh.attainable hg).wellFormed hnil)
  | leftFactor hgh ih =>
    exact ih ((factorSteps_leftFactor (hgh.attainable hg).wellFormed).nil_mem_alternatives hnil)

end Grammar

/-! ## Grammars of texts -/

namespace Notation

/-- There are several tokens, and each of them spells the empty word. -/
def RepeatsEpsilon (tokens : List String) : Prop :=
  2 ≤ tokens.length ∧ ∀ token ∈ tokens, SpellsEpsilon token

variable {ds : List Declaration} {g : Grammar} {name : String}

/-- Tokens are left without symbols if they repeat the empty word. -/
theorem ofLexemes_eq_nil_iff {declared tokens : List String} (hne : tokens ≠ []) :
    Alternative.ofLexemes declared tokens = [] ↔ RepeatsEpsilon tokens := by
  simp only [Alternative.ofLexemes, RepeatsEpsilon, List.length_map]
  split
  next hmany =>
    simp only [List.filter_eq_nil_iff, List.mem_map, forall_exists_index, and_imp,
      forall_apply_eq_imp_iff₂, bne_iff_ne, not_not, Symbol.ofLexeme_eq_epsilon_iff]
    exact ⟨fun h => ⟨hmany, h⟩, And.right⟩
  next hone => exact iff_of_false (by simpa using hne) fun hrepeats => hone hrepeats.1

/-- A nonterminal has an alternative without symbols if one that repeats the empty word is declared
for it. -/
theorem nil_mem_alternatives_iff (hrules : g.rules = Grammar.rulesOf ds) :
    [] ∈ g.alternatives name ↔
      ∃ d ∈ ds, d.left = name ∧ ∃ tokens ∈ d.right, RepeatsEpsilon tokens := by
  rw [alternatives_of_rules_eq hrules]
  simp only [Declaration.alternatives, List.mem_flatMap, List.mem_filter, List.mem_map, beq_iff_eq,
    Bool.not_eq_true', List.isEmpty_eq_false_iff, and_assoc]
  refine exists_congr fun d => and_congr_right fun _ => and_congr_right fun _ =>
    exists_congr fun tokens => and_congr_right fun _ => ?_
  constructor
  · rintro ⟨hne, hnil⟩
    exact (ofLexemes_eq_nil_iff hne).1 hnil
  · intro hrepeats
    have hne : tokens ≠ [] := List.length_pos_iff.1 (Nat.lt_of_lt_of_le Nat.two_pos hrepeats.1)
    exact ⟨hne, (ofLexemes_eq_nil_iff hne).2 hrepeats⟩

end Notation

namespace Grammar

open Notation

variable {text : String} {ds : List Declaration} {g : Grammar}

/-- A nonterminal of a text has an alternative without symbols if one that repeats the empty word is
declared for it. After any changes all other alternatives are canonical, and those without symbols
are left from the text. Alternatives that are spelled alike but for the empty word are the same,
unless they are the two ways to write the empty word alone. Only these two can be in conflict with
each other, and only where the text has an alternative without symbols. -/
theorem canonical_alternatives_ofText (hds : Reads 1 (text.toList.splitOn ';') ds)
    (hg : ofText text = .ok g) :
    (∀ name, [] ∈ g.alternatives name ↔
      ∃ d ∈ ds, d.left = name ∧ ∃ tokens ∈ d.right, RepeatsEpsilon tokens) ∧
    ∀ h, g.ChangesTo h →
      (∀ name, ∀ p ∈ h.alternatives name, p.Canonical ∨ p = [] ∧ [] ∈ g.alternatives name) ∧
      (∀ name other, ∀ p ∈ h.alternatives name, ∀ q ∈ h.alternatives other,
        eraseEpsilon p = eraseEpsilon q → p = q ∨ p.BothEmpty q) ∧
      ∀ follow, ∀ c ∈ (Table.build h.firstSets follow).conflicts,
        eraseEpsilon c.replaced = eraseEpsilon c.winner →
          c.replaced.BothEmpty c.winner ∧ [] ∈ g.alternatives c.nonterminal := by
  refine ⟨fun name => ?_, fun h hgh => ?_⟩
  · exact nil_mem_alternatives_iff (reads_ofText.1 hds ▸ (ofText_eq_ok hg).2.1)
  have hattainable := hgh.attainable (.ofText hg)
  have hnil : ∀ name, [] ∈ h.alternatives name → [] ∈ g.alternatives name := fun _ =>
    hgh.nil_mem_alternatives (.ofText hg)
  refine ⟨fun name p hp => ?_, fun name other p hp q hq heq => ?_, fun follow c hc heq => ?_⟩
  · by_cases hne : p = []
    · subst hne
      exact .inr ⟨rfl, hnil name hp⟩
    · exact .inl ((hattainable.spelled_of_mem hp).canonical hne)
  · exact (hattainable.spelled_of_mem hp).eq_or_bothEmpty (hattainable.spelled_of_mem hq) heq
  · obtain ⟨hreplaced, hwinner, hne⟩ :=
      Table.alternatives_of_mem_conflicts hattainable.wellFormed hc
    have hboth := ((hattainable.spelled_of_mem hreplaced).eq_or_bothEmpty
      (hattainable.spelled_of_mem hwinner) heq).resolve_left hne
    refine ⟨hboth, hnil _ ?_⟩
    rcases hboth with ⟨hempty, -⟩ | ⟨-, hempty⟩
    · rwa [hempty] at hreplaced
    · rwa [hempty] at hwinner

/-- A left-recursive grammar in which one nonterminal repeats the empty word, and another one has it
next to other symbols. -/
theorem canonical_alternatives_ofText_of_text :
    let g : Grammar :=
      { rules := [⟨"S", [[.nonterminal "S", .terminal "a"], [.nonterminal "B"]]⟩,
          ⟨"B", [[], [.epsilon]]⟩]
        start := "S" }
    Reads 1 ("S -> S a | ε B; B -> ε epsilon | ε".toList.splitOn ';')
        [⟨1, "S", [["S", "a"], ["ε", "B"]]⟩, ⟨2, "B", [["ε", "epsilon"], ["ε"]]⟩] ∧
      ofText "S -> S a | ε B; B -> ε epsilon | ε" = .ok g ∧
      (∀ p ∈ g.eliminateLeftRecursion.alternatives "S", p.Canonical) ∧
      ∀ c ∈ (Table.build g.firstSets g.firstSets.followSets).conflicts,
        eraseEpsilon c.replaced = eraseEpsilon c.winner → c.replaced.BothEmpty c.winner := by
  intro g
  have hds : Reads 1 ("S -> S a | ε B; B -> ε epsilon | ε".toList.splitOn ';')
      [⟨1, "S", [["S", "a"], ["ε", "B"]]⟩, ⟨2, "B", [["ε", "epsilon"], ["ε"]]⟩] :=
    reads_ofText.2 (by set_option maxRecDepth 4000 in rfl)
  have hg : ofText "S -> S a | ε B; B -> ε epsilon | ε" = .ok g := by
    set_option maxRecDepth 4000 in rfl
  obtain ⟨-, hall⟩ := canonical_alternatives_ofText hds hg
  obtain ⟨hcanonical, -, -⟩ := hall _ ChangesTo.refl.eliminateLeftRecursion
  obtain ⟨-, -, hconflicts⟩ := hall g .refl
  refine ⟨hds, hg, fun p hp => (hcanonical "S" p hp).resolve_right fun h => ?_, fun c hc heq =>
    (hconflicts _ c hc heq).1⟩
  exact absurd h.2 (by decide)

/-- The reader makes an alternative without symbols, which is not canonical, and it is in conflict
with the other one for the empty word. -/
theorem conflict_bothEmpty_of_text :
    let g : Grammar := { rules := [⟨"S", [[], [.epsilon]]⟩], start := "S" }
    ofText "S -> ε ε | ε" = .ok g ∧ [] ∈ g.alternatives "S" ∧ ¬ Alternative.Canonical [] ∧
      g.table.conflicts = [⟨"S", .endMarker, [], [.epsilon]⟩] := by
  intro g
  refine ⟨rfl, by decide, Alternative.not_canonical_nil, ?_⟩
  decide +kernel

end Grammar

end PredictiveParsing
