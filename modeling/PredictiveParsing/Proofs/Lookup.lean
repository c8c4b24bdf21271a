import Mathlib.Data.List.Induction
import Mathlib.Data.List.Nodup
import PredictiveParsing.Grammar.Fresh

/-!
# What a grammar remembers of its rules

The index is made from the names alone, and it finds a name at the last of its rules. The terminals
are collected in one pass, whose run is described by the symbols it has behind it: it has found the
terminals among them, once each, and it has seen their names. From here on a rule is looked up in
the list of rules, and the terminals are a filtered list.

## Main statements

* `Grammar.lookup_index_eq_some`: where no name is declared twice, each is found at its own place.
* `Grammar.rule?_eq`: the lookup of a rule, without the index.
* `TerminalScan.After.foldl`: what the pass over the right sides has found after some symbols.
* `Grammar.terminals_eq`: the terminals, without the pass.
-/

namespace PredictiveParsing

/-! ## The index -/

section Index

variable {rules before after : List Rule} {r : Rule} {name : String}

theorem indexOf_append_singleton (rules : List Rule) (r : Rule) :
    indexOf (rules ++ [r]) = (r.name, rules.length) :: indexOf rules := by
  simp [indexOf, List.zipIdx_append]

theorem lookup_indexOf_eq_none (h : name ∉ rules.map Rule.name) :
    (indexOf rules).lookup name = none := by
  refine List.lookup_eq_none_iff.2 fun p hp => ?_
  have hmem := List.fst_mem_of_mem_zipIdx (List.mem_reverse.1 hp)
  simpa using fun heq : name = p.1 => h (heq ▸ hmem)

/-- Rules behind the last one of a name do not matter for the place at which it is found. -/
theorem lookup_indexOf_append (h : r.name ∉ after.map Rule.name) :
    (indexOf (before ++ r :: after)).lookup r.name = some before.length := by
  induction after using List.reverseRecOn with
  | nil => simp [indexOf_append_singleton]
  | append_singleton after q ih =>
    simp only [List.map_append, List.map_cons, List.map_nil, List.mem_append,
      List.mem_singleton, not_or] at h
    rw [← List.cons_append, ← List.append_assoc, indexOf_append_singleton, List.lookup_cons,
      beq_false_of_ne h.2]
    exact ih h.1

theorem exists_last_of_mem (h : name ∈ rules.map Rule.name) :
    ∃ before r after, rules = before ++ r :: after ∧ r.name = name ∧
      name ∉ after.map Rule.name := by
  induction rules using List.reverseRecOn with
  | nil => simp at h
  | append_singleton rules q ih =>
    by_cases hq : q.name = name
    · exact ⟨rules, q, [], rfl, hq, by simp⟩
    · obtain ⟨before, r, after, rfl, hr, hafter⟩ := ih (by simpa [Ne.symm hq] using h)
      exact ⟨before, r, after ++ [q], by simp, hr, by simpa [Ne.symm hq] using hafter⟩

end Index

/-! ## The terminals -/

namespace TerminalScan

variable {index : List (String × Nat)} {scan : TerminalScan} {us : List Symbol}

/-- Whether a symbol is a terminal whose name is not in the index. -/
def counts (index : List (String × Nat)) : Symbol → Bool
  | .terminal n => (index.lookup n).isNone
  | _ => false

/-- What the pass has found when the symbols `us` are behind it, and what it has seen. -/
structure After (index : List (String × Nat)) (us : List Symbol) (scan : TerminalScan) : Prop where
  seen : ∀ n, n ∈ scan.seen ↔ .terminal n ∈ us.filter (counts index)
  found : scan.found = (us.filter (counts index)).eraseDups

theorem After.start : After index [] {} := ⟨by simp, by simp⟩

theorem eraseDups_concat (ss : List Symbol) (s : Symbol) :
    (ss ++ [s]).eraseDups = if s ∈ ss then ss.eraseDups else ss.eraseDups ++ [s] := by
  rw [List.eraseDups_append, List.removeAll]
  split <;> simp_all [List.eraseDups_cons]

theorem next_of_not_counts {s : Symbol} (hs : ¬ counts index s) : scan.next index s = scan := by
  cases s with
  | terminal n =>
    have hindex : (index.lookup n).isNone = false := by
      simpa only [counts, Bool.not_eq_true] using hs
    exact if_neg (by simp [hindex])
  | _ => rfl

/-- A terminal that counts and has not been seen is found, and no other symbol is. -/
theorem After.next (h : After index us scan) (s : Symbol) :
    After index (us ++ [s]) (scan.next index s) := by
  by_cases hs : counts index s
  · match s with
    | .terminal n =>
      have hindex : (index.lookup n).isNone := hs
      have hfilter : (us ++ [Symbol.terminal n]).filter (counts index)
          = us.filter (counts index) ++ [Symbol.terminal n] := by
        rw [List.filter_append, List.filter_cons_of_pos hs, List.filter_nil]
      by_cases hseen : n ∈ scan.seen
      · have hskip : scan.next index (.terminal n) = scan := if_neg (by simp [hseen])
        have hmem := (h.seen n).1 hseen
        refine ⟨fun m => ?_, ?_⟩
        · rw [hskip, hfilter, h.seen m]
          grind
        · rw [hskip, hfilter, eraseDups_concat, if_pos hmem, h.found]
      · have hnew : scan.next index (.terminal n) = ⟨n :: scan.seen, scan.found ++ [.terminal n]⟩ :=
          if_pos (by simp [hindex, hseen])
        refine ⟨fun m => ?_, ?_⟩
        · simp [hnew, hfilter, h.seen m, or_comm]
        · rw [hnew, hfilter, eraseDups_concat, if_neg (mt (h.seen n).2 hseen), h.found]
  · rw [next_of_not_counts hs]
    refine ⟨?_, ?_⟩
    · simpa [List.filter_append, hs] using h.seen
    · simp [List.filter_append, hs, h.found]

theorem After.foldl (h : After index us scan) (vs : List Symbol) :
    After index (us ++ vs) (vs.foldl (TerminalScan.next index) scan) := by
  induction vs generalizing us scan with
  | nil => simpa using h
  | cons s vs ih => simpa using ih (h.next s)

theorem after_ofRules (index : List (String × Nat)) (rules : List Rule) :
    After index (rules.flatMap fun r => r.alternatives.flatten) (ofRules index rules) := by
  have hrun : ofRules index rules
      = (rules.flatMap fun r => r.alternatives.flatten).foldl (TerminalScan.next index) {} := by
    simp only [ofRules, List.foldl_flatMap, List.foldl_flatten]
  rw [hrun]
  exact After.start.foldl _

end TerminalScan

/-! ## Grammars -/

namespace Grammar

variable {g h : Grammar} {name : String} {i : Nat} {r : Rule} {before after : List Rule}

theorem lookup_index_of_append (hrules : g.rules = before ++ r :: after)
    (h : r.name ∉ after.map Rule.name) : g.index.lookup r.name = some before.length := by
  rw [g.current.index, hrules, lookup_indexOf_append h]

theorem lookup_index_eq_none (h : name ∉ g.names) : g.index.lookup name = none := by
  rw [g.current.index, lookup_indexOf_eq_none h]

@[simp] theorem declares_iff : g.declares name ↔ name ∈ g.names := by
  constructor
  · intro hd
    by_contra h
    simp [declares, lookup_index_eq_none h] at hd
  · intro h
    obtain ⟨before, r, after, hrules, rfl, hafter⟩ := exists_last_of_mem h
    simp [declares, lookup_index_of_append hrules hafter]

/-- Where no name is declared twice, a name is found at its own place, and no other name is
found. -/
theorem lookup_index_eq_some (hg : g.names.Nodup) :
    g.index.lookup name = some i ↔ g.names[i]? = some name := by
  by_cases hname : name ∈ g.names
  · obtain ⟨before, r, after, hrules, rfl, hafter⟩ := exists_last_of_mem hname
    have hplace : g.names[before.length]? = some r.name := by simp [names, hrules]
    rw [lookup_index_of_append hrules hafter, Option.some_inj]
    constructor
    · rintro rfl
      exact hplace
    · intro hi
      have hlt := List.getElem?_eq_some_iff.1 hplace |>.1
      exact (List.getElem?_inj hlt hg).1 (hplace.trans hi.symm)
  · rw [lookup_index_eq_none hname]
    exact ⟨nofun, fun hi => absurd (List.mem_of_getElem? hi) hname⟩

/-- The lookup of a rule, without the index: the last rule of that name. -/
theorem rule?_eq (g : Grammar) (name : String) :
    g.rule? name = g.rules.reverse.find? (·.name == name) := by
  by_cases hname : name ∈ g.names
  · obtain ⟨before, r, after, hrules, rfl, hafter⟩ := exists_last_of_mem hname
    have hnone : after.reverse.find? (·.name == r.name) = none := by
      simpa using fun q hq heq => hafter (List.mem_map.2 ⟨q, hq, heq⟩)
    simp [rule?, lookup_index_of_append hrules hafter, hrules, List.find?_append, hnone]
  · rw [rule?, lookup_index_eq_none hname, eq_comm]
    simpa using fun q hq heq => hname (List.mem_map.2 ⟨q, hq, heq⟩)

/-- Whether a symbol is a terminal that does not share its name with a nonterminal of `g`. -/
def ownTerminal (g : Grammar) : Symbol → Bool
  | .terminal n => !g.declares n
  | _ => false

/-- The terminals, without the pass that collects them. -/
theorem terminals_eq (g : Grammar) :
    g.terminals = (g.occurrences.filter g.ownTerminal).eraseDups ++ [.endMarker] := by
  have hcounts : TerminalScan.counts g.index = g.ownTerminal := by
    funext s
    cases s <;> simp [TerminalScan.counts, ownTerminal, declares]
  rw [g.current.terminals, terminalsOf, (TerminalScan.after_ofRules g.index g.rules).found, hcounts]
  rfl

/-- A grammar is determined by its rules, its start symbol and its count. -/
theorem eq_of_rules (hrules : g.rules = h.rules) (hstart : g.start = h.start)
    (hminted : g.minted = h.minted) : g = h := by
  have hindex : g.index = h.index := by rw [g.current.index, h.current.index, hrules]
  have hterminals : g.terminals = h.terminals := by
    rw [g.current.terminals, h.current.terminals, hindex, hrules]
  obtain ⟨⟨_, _, _, _, _⟩, _⟩ := g
  obtain ⟨⟨_, _, _, _, _⟩, _⟩ := h
  simp_all

end Grammar

end PredictiveParsing
