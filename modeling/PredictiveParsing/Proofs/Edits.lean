import Mathlib.Tactic.Tauto
import PredictiveParsing.Proofs.Lookup

/-!
# Rules and their edits

What a grammar says about one nonterminal or one symbol, read off its rules, and what the two edits
of a grammar change about it.

## Main statements

* `Grammar.alternatives_of_mem`: a rule gives the alternatives of its nonterminal.
* `Grammar.alternatives_setAlternatives`, `Grammar.alternatives_insertAfter`: an edit changes the
  alternatives of one nonterminal only.
* `Grammar.rules_setAlternatives_of_append`, `Grammar.rules_insertAfter_of_append`: what an edit
  makes of the list of rules.
-/

namespace PredictiveParsing.Grammar

variable {g : Grammar} {name : String} {p : Alternative} {ps : List Alternative} {r new : Rule}
  {done rs : List Rule}

/-! ## Rules -/

theorem mem_names : name ∈ g.names ↔ ∃ r ∈ g.rules, r.name = name := List.mem_map

theorem name_mem_names (h : r ∈ g.rules) : r.name ∈ g.names := mem_names.2 ⟨r, h, rfl⟩

theorem mem_rules_of_rule? (h : g.rule? name = some r) : r ∈ g.rules :=
  List.mem_reverse.1 (List.mem_of_find?_eq_some (rule?_eq g name ▸ h))

theorem rule?_name (h : g.rule? name = some r) : r.name = name := by
  rw [rule?_eq] at h
  simpa using List.find?_some h

theorem mem_occurrences {s : Symbol} :
    s ∈ g.occurrences ↔ ∃ r ∈ g.rules, ∃ p ∈ r.alternatives, s ∈ p := by
  simp [occurrences]

theorem exists_rule_of_mem_alternatives (h : p ∈ g.alternatives name) :
    ∃ r ∈ g.rules, r.name = name ∧ p ∈ r.alternatives := by
  cases hrule : g.rule? name with
  | none => simp [alternatives, hrule] at h
  | some r =>
    exact ⟨r, mem_rules_of_rule? hrule, rule?_name hrule, by simpa [alternatives, hrule] using h⟩

theorem mem_names_of_mem_alternatives (h : p ∈ g.alternatives name) : name ∈ g.names := by
  obtain ⟨r, hr, rfl, -⟩ := exists_rule_of_mem_alternatives h
  exact name_mem_names hr

theorem alternatives_eq_nil (h : name ∉ g.names) : g.alternatives name = [] :=
  List.eq_nil_iff_forall_not_mem.2 fun _ hp => h (mem_names_of_mem_alternatives hp)

theorem rule?_eq_some (hg : g.names.Nodup) :
    g.rule? name = some r ↔ r ∈ g.rules ∧ r.name = name := by
  refine ⟨fun h => ⟨mem_rules_of_rule? h, rule?_name h⟩, ?_⟩
  rintro ⟨hr, rfl⟩
  obtain ⟨i, hi⟩ := List.getElem?_of_mem hr
  have hname : g.names[i]? = some r.name := by simp [names, hi]
  rw [rule?, (lookup_index_eq_some hg).2 hname, Option.bind_some, hi]

/-- A rule gives the alternatives of its nonterminal, as no other rule has the same name. -/
theorem alternatives_of_mem (hg : g.names.Nodup) (h : r ∈ g.rules) :
    g.alternatives r.name = r.alternatives := by
  rw [alternatives, (rule?_eq_some hg).2 ⟨h, rfl⟩, Option.map_some, Option.getD_some]

theorem mem_alternatives (hg : g.names.Nodup) :
    p ∈ g.alternatives name ↔ ∃ r ∈ g.rules, r.name = name ∧ p ∈ r.alternatives := by
  refine ⟨exists_rule_of_mem_alternatives, ?_⟩
  rintro ⟨r, hr, rfl, hp⟩
  rwa [alternatives_of_mem hg hr]

theorem mem_occurrences_of_mem_alternatives {s : Symbol} (hp : p ∈ g.alternatives name)
    (hs : s ∈ p) : s ∈ g.occurrences := by
  obtain ⟨r, hr, -, hp⟩ := exists_rule_of_mem_alternatives hp
  exact mem_occurrences.2 ⟨r, hr, p, hp, hs⟩

/-- No other rule has the name of a rule. -/
theorem not_mem_of_rules_eq (hnodup : g.names.Nodup) (hrules : g.rules = done ++ r :: rs) :
    r.name ∉ done.map Rule.name ∧ r.name ∉ rs.map Rule.name := by
  rw [names, hrules, List.map_append, List.map_cons, List.nodup_middle, List.nodup_cons] at hnodup
  exact not_or.1 (mt List.mem_append.2 hnodup.1)

/-! ## New alternatives -/

/-- The last rule of the name changes, and it keeps its place. -/
theorem rules_setAlternatives_of_append (hrules : g.rules = done ++ r :: rs)
    (hlast : r.name ∉ rs.map Rule.name) (ps : List Alternative) :
    (g.setAlternatives r.name ps).rules = done ++ ⟨r.name, ps⟩ :: rs := by
  have hindex := lookup_index_of_append hrules hlast
  have hmodify := List.modifyTailIdx_add
    (List.modifyHead fun q : Rule => { q with alternatives := ps }) 0 done (r :: rs)
  simp only [setAlternatives, hindex, hrules]
  exact hmodify

theorem setAlternatives_of_not_mem (h : name ∉ g.names) : g.setAlternatives name ps = g := by
  simp only [setAlternatives, lookup_index_eq_none h]

@[simp] theorem names_setAlternatives : (g.setAlternatives name ps).names = g.names := by
  by_cases hname : name ∈ g.names
  · obtain ⟨done, r, rs, hrules, rfl, hlast⟩ := exists_last_of_mem hname
    simp [names, rules_setAlternatives_of_append hrules hlast, hrules]
  · rw [setAlternatives_of_not_mem hname]

@[simp] theorem start_setAlternatives : (g.setAlternatives name ps).start = g.start := by
  unfold setAlternatives
  split <;> rfl

@[simp] theorem minted_setAlternatives : (g.setAlternatives name ps).minted = g.minted := by
  unfold setAlternatives
  split <;> rfl

theorem mem_rules_of_setAlternatives (h : r ∈ (g.setAlternatives name ps).rules) :
    (name ∈ g.names ∧ r = ⟨name, ps⟩) ∨ r ∈ g.rules := by
  by_cases hname : name ∈ g.names
  · obtain ⟨done, q, rs, hrules, rfl, hlast⟩ := exists_last_of_mem hname
    rw [rules_setAlternatives_of_append hrules hlast] at h
    simp only [hrules, List.mem_append, List.mem_cons] at h ⊢
    tauto
  · exact .inr (setAlternatives_of_not_mem hname ▸ h)

theorem mem_rules_setAlternatives_self (h : name ∈ g.names) :
    ⟨name, ps⟩ ∈ (g.setAlternatives name ps).rules := by
  obtain ⟨done, q, rs, hrules, rfl, hlast⟩ := exists_last_of_mem h
  simp [rules_setAlternatives_of_append hrules hlast]

theorem mem_rules_setAlternatives_of_ne (hr : r ∈ g.rules) (hne : r.name ≠ name) :
    r ∈ (g.setAlternatives name ps).rules := by
  by_cases hname : name ∈ g.names
  · obtain ⟨done, q, rs, hrules, rfl, hlast⟩ := exists_last_of_mem hname
    rw [rules_setAlternatives_of_append hrules hlast]
    rw [hrules, List.mem_append, List.mem_cons] at hr
    have hrq : r ≠ q := fun h => hne (congrArg Rule.name h)
    simp only [List.mem_append, List.mem_cons]
    tauto
  · rwa [setAlternatives_of_not_mem hname]

theorem alternatives_setAlternatives (h : name ∈ g.names) (other : String) :
    (g.setAlternatives name ps).alternatives other
      = if other = name then ps else g.alternatives other := by
  obtain ⟨done, r, rs, hrules, rfl, hlast⟩ := exists_last_of_mem h
  have hnone : rs.reverse.find? (·.name == r.name) = none := by
    simpa using fun q hq heq => hlast (List.mem_map.2 ⟨q, hq, heq⟩)
  have hset := rules_setAlternatives_of_append hrules hlast ps
  simp only [alternatives, rule?_eq, hset, hrules, List.reverse_append, List.reverse_cons,
    List.append_assoc, List.find?_append]
  split
  next hother =>
    subst hother
    simp [hnone]
  next hother => simp [Ne.symm hother]

/-! ## A new rule -/

/-- The new rule comes directly after the last rule of the name. -/
theorem rules_insertAfter_of_append (hrules : g.rules = done ++ r :: rs)
    (hlast : r.name ∉ rs.map Rule.name) (new : Rule) :
    (g.insertAfter r.name new).rules = done ++ r :: new :: rs := by
  have hindex := lookup_index_of_append hrules hlast
  have hinsert := List.modifyTailIdx_add (new :: ·) 1 done (r :: rs)
  simp only [insertAfter, hindex, hrules]
  exact hinsert

theorem rules_insertAfter_of_not_mem (h : name ∉ g.names) :
    (g.insertAfter name new).rules = g.rules ++ [new] := by
  have hinsert := List.modifyTailIdx_add (new :: ·) 0 g.rules []
  rw [List.append_nil] at hinsert
  simp only [insertAfter, lookup_index_eq_none h]
  exact hinsert

/-- The rules before the new one and those after it. There is one before it if there is one at
all. -/
theorem exists_rules_insertAfter (g : Grammar) (name : String) (new : Rule) :
    ∃ done rs, g.rules = done ++ rs ∧ (g.insertAfter name new).rules = done ++ new :: rs ∧
      (done = [] → g.rules = []) := by
  by_cases hname : name ∈ g.names
  · obtain ⟨done, r, rs, hrules, rfl, hlast⟩ := exists_last_of_mem hname
    refine ⟨done ++ [r], rs, by simp [hrules], ?_, by simp⟩
    simp [rules_insertAfter_of_append hrules hlast]
  · exact ⟨g.rules, [], by simp, rules_insertAfter_of_not_mem hname, id⟩

theorem rules_insertAfter_perm : (g.insertAfter name new).rules.Perm (new :: g.rules) := by
  obtain ⟨done, rs, hrules, hinsert, -⟩ := exists_rules_insertAfter g name new
  rw [hinsert, hrules]
  exact List.perm_middle

theorem rules_sublist_insertAfter : g.rules.Sublist (g.insertAfter name new).rules := by
  obtain ⟨done, rs, hrules, hinsert, -⟩ := exists_rules_insertAfter g name new
  rw [hinsert, hrules]
  exact (List.sublist_cons_self new rs).append_left done

theorem names_insertAfter_perm : (g.insertAfter name new).names.Perm (new.name :: g.names) :=
  rules_insertAfter_perm.map Rule.name

theorem mem_rules_insertAfter :
    r ∈ (g.insertAfter name new).rules ↔ r = new ∨ r ∈ g.rules := by
  simp [rules_insertAfter_perm.mem_iff]

@[simp] theorem start_insertAfter : (g.insertAfter name new).start = g.start := rfl

/-- The first rule stays the first one. -/
theorem head?_names_insertAfter (h : g.names ≠ []) :
    (g.insertAfter name new).names.head? = g.names.head? := by
  obtain ⟨done, rs, hrules, hinsert, hnil⟩ := exists_rules_insertAfter g name new
  cases done with
  | nil => exact absurd (by rw [names, hnil rfl, List.map_nil]) h
  | cons r done => simp [names, hinsert, hrules]

theorem alternatives_insertAfter (h : new.name ∉ g.names) (other : String) :
    (g.insertAfter name new).alternatives other
      = if other = new.name then new.alternatives else g.alternatives other := by
  obtain ⟨done, rs, hrules, hinsert, -⟩ := exists_rules_insertAfter g name new
  simp only [alternatives, rule?_eq, hinsert, hrules, List.reverse_append, List.reverse_cons,
    List.append_assoc, List.find?_append]
  split
  next hother =>
    subst hother
    have hnone : rs.reverse.find? (·.name == new.name) = none := by
      simpa using fun q hq heq => h (mem_names.2 ⟨q, by simp [hrules, hq], heq⟩)
    simp [hnone]
  next hother => simp [Ne.symm hother]

end PredictiveParsing.Grammar
