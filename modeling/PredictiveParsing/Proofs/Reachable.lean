import PredictiveParsing.Grammar.Warning
import PredictiveParsing.Proofs.Rounds
import PredictiveParsing.Proofs.WellFormed

/-!
# Reachable nonterminals

The search for the nonterminals that can be reached from the start symbol adds, round by round,
those in the alternatives of what is reached already. What it finds are the nonterminals of the
forms that the start symbol derives.

## Main statements

* `Grammar.mem_reachable`: the search finds the nonterminals of the derived forms.
-/

namespace PredictiveParsing

theorem Symbol.nonterminal?_eq_some {s : Symbol} {name : String} :
    s.nonterminal? = some name ↔ s = .nonterminal name := by
  cases s <;> simp [nonterminal?]

namespace Grammar

variable {g : Grammar} {name : String} {v : List Symbol}

theorem mem_mentions {r : Rule} {known : List String} :
    name ∈ mentions r known ↔ r.name ∈ known ∧ ∃ p ∈ r.alternatives, .nonterminal name ∈ p := by
  by_cases h : r.name ∈ known <;> simp [mentions, h, Symbol.nonterminal?_eq_some]

/-- A reached nonterminal is in a derived form. -/
theorem exists_derives_of_mem_reachable (hg : g.WellFormed) :
    ∀ name ∈ g.reachable, ∃ v, g.Derives [.nonterminal g.start] v ∧ .nonterminal name ∈ v := by
  refine saturate_induction (fun name hname => ?_) fun rule hrule known hknown name hname => ?_
  · exact ⟨_, .refl _, by simpa using hname⟩
  · obtain ⟨r, hr, rfl⟩ := List.mem_map.1 hrule
    obtain ⟨hreached, p, hp, hmem⟩ := mem_mentions.1 hname
    obtain ⟨v, hv, hoccurs⟩ := hknown r.name hreached
    obtain ⟨before, after, rfl⟩ := List.append_of_mem hoccurs
    rw [← hg.alternatives_eq hr] at hp
    exact ⟨_, hv.trans (Rewrites.replace before after hp).derives, by simp [hmem]⟩

theorem staysIn_mentions (hg : g.WellFormed) : StaysIn g.names (g.rules.map mentions) := by
  intro rule hrule known _ name hname
  obtain ⟨r, hr, rfl⟩ := List.mem_map.1 hrule
  obtain ⟨-, p, hp, hmem⟩ := mem_mentions.1 hname
  exact hg.admits (.nonterminal name) (mem_occurrences.2 ⟨r, hr, p, hp, hmem⟩)

/-- A nonterminal of a derived form is reached. -/
theorem mem_reachable_of_derives (hg : g.WellFormed) (h : g.Derives [.nonterminal g.start] v) :
    ∀ name, .nonterminal name ∈ v → name ∈ g.reachable := by
  have hstart : [g.start] ⊆ g.names := by simpa using hg.start_mem
  induction h with
  | refl =>
    intro name hname
    obtain rfl : name = g.start := by simpa using hname
    exact subset_saturate _ _ _ (by simp)
  | tail _ hstep ih =>
    obtain ⟨before, after, hp⟩ := hstep
    intro name hname
    simp only [List.mem_append] at ih hname
    rcases hname with hname | hname | hname
    · exact ih name (.inl hname)
    · obtain ⟨r, hr, rfl, hpr⟩ := exists_rule_of_mem_alternatives hp
      exact rule_saturate_subset (staysIn_mentions hg) hstart (List.mem_map_of_mem hr)
        (mem_mentions.2 ⟨ih r.name (.inr List.mem_cons_self), _, hpr, hname⟩)
    · exact ih name (.inr (List.mem_cons_of_mem _ hname))

/-- The nonterminals that are reached are those in the forms that the start symbol derives. -/
theorem mem_reachable (hg : g.WellFormed) :
    name ∈ g.reachable ↔ ∃ v, g.Derives [.nonterminal g.start] v ∧ .nonterminal name ∈ v :=
  ⟨exists_derives_of_mem_reachable hg name, fun ⟨_, hv, hmem⟩ =>
    mem_reachable_of_derives hg hv name hmem⟩

end Grammar

end PredictiveParsing
