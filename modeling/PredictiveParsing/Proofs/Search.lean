import Mathlib.Logic.Function.Iterate
import PredictiveParsing.Proofs.Attainable
import PredictiveParsing.Proofs.Reachable

/-!
# The search for reachable nonterminals

Each step of the search takes the first nonterminal out of a queue and looks at its alternatives. A
nonterminal that is met there for the first time is reached and goes to the end of the queue. So the
reached nonterminals are at any time those that have been looked at, in order, followed by the
queue, and none of them is there twice.

## Main definitions

* `Search.next`: one step of the search.
* `Search.Invariant`: what holds of the search after each step.

## Main statements

* `Search.Invariant.exists_iterate`: the search ends.
* `Grammar.warnings_exact`: the warnings about a grammar.
-/

namespace PredictiveParsing

/-- The nonterminals in the alternatives of a nonterminal, in order. -/
def Grammar.successors (g : Grammar) (name : String) : List String :=
  (g.alternatives name).flatten.filterMap Symbol.nonterminal?

/-- A search part way through: the nonterminals that it has reached, and those among them that it
has not looked at. -/
structure Search where
  reached : List String
  queue : List String
  deriving DecidableEq, Repr

namespace Search

/-- A nonterminal that is met for the first time is reached and goes to the end of the queue. -/
def meet (s : Search) (name : String) : Search :=
  if name ∈ s.reached then s else ⟨s.reached ++ [name], s.queue ++ [name]⟩

/-- One step of the search looks at the first nonterminal of the queue. -/
def next (g : Grammar) (s : Search) : Search :=
  match s.queue with
  | [] => s
  | name :: queue => (g.successors name).foldl meet ⟨s.reached, queue⟩

/-- The search starts with the start symbol. -/
def start (g : Grammar) : Search := ⟨[g.start], [g.start]⟩

/-- What holds of the search after it has looked at some nonterminals. -/
structure Invariant (g : Grammar) (looked : List String) (s : Search) : Prop where
  /-- What is met first is looked at first. -/
  order : s.reached = looked ++ s.queue
  nodup : s.reached.Nodup
  start : g.start ∈ s.reached
  sound : s.reached ⊆ g.reachable
  closed : ∀ name ∈ looked, g.successors name ⊆ s.reached

variable {g : Grammar} {name : String} {names looked reached queue : List String} {s : Search}

/-! ## One step -/

/-- What is met for the first time is added at both ends, and then all that is met is reached. -/
theorem foldl_meet (names : List String) (s : Search) :
    ∃ new, names.foldl meet s = ⟨s.reached ++ new, s.queue ++ new⟩ ∧ new ⊆ names ∧
      names ⊆ s.reached ++ new ∧ (s.reached.Nodup → (s.reached ++ new).Nodup) := by
  induction names generalizing s with
  | nil => exact ⟨[], by simp⟩
  | cons name names ih =>
    obtain ⟨new, hfold, hnew, hall, hnodup⟩ := ih (s.meet name)
    by_cases hmet : name ∈ s.reached
    · have hmeet : s.meet name = s := if_pos hmet
      rw [hmeet] at hfold hall hnodup
      refine ⟨new, by rw [List.foldl_cons, hmeet, hfold], List.subset_cons_of_subset _ hnew, ?_,
        hnodup⟩
      exact List.cons_subset.2 ⟨List.mem_append_left _ hmet, hall⟩
    · have hmeet : s.meet name = ⟨s.reached ++ [name], s.queue ++ [name]⟩ := if_neg hmet
      rw [hmeet] at hfold hall hnodup
      simp only [List.append_assoc, List.singleton_append] at hfold hall hnodup
      refine ⟨name :: new, by rw [List.foldl_cons, hmeet, hfold], List.cons_subset_cons _ hnew,
        List.cons_subset.2 ⟨by simp, hall⟩, fun h => hnodup ?_⟩
      exact h.append (List.nodup_singleton name) (List.disjoint_singleton.2 hmet)

theorem mem_successors {other : String} :
    other ∈ g.successors name ↔ ∃ p ∈ g.alternatives name, .nonterminal other ∈ p := by
  simp [Grammar.successors, Symbol.nonterminal?_eq_some]

/-- What is met in the alternatives of a nonterminal that can be reached can be reached. -/
theorem successors_subset_reachable (hg : g.WellFormed) (h : name ∈ g.reachable) :
    g.successors name ⊆ g.reachable := by
  intro other hother
  obtain ⟨p, hp, hmem⟩ := mem_successors.1 hother
  obtain ⟨r, hr, rfl, hpr⟩ := Grammar.exists_rule_of_mem_alternatives hp
  have hstart : [g.start] ⊆ g.names := by simpa using hg.start_mem
  exact rule_saturate_subset (Grammar.staysIn_mentions hg) hstart (List.mem_map_of_mem hr)
    (Grammar.mem_mentions.2 ⟨h, p, hpr, hmem⟩)

namespace Invariant

theorem initial (g : Grammar) : Invariant g [] (Search.start g) where
  order := rfl
  nodup := List.nodup_singleton _
  start := List.mem_singleton_self _
  sound := subset_saturate _ _ _
  closed := by simp

/-- A step looks at one more nonterminal. -/
theorem next (hg : g.WellFormed) (h : Invariant g looked ⟨reached, name :: queue⟩) :
    Invariant g (looked ++ [name]) (Search.next g ⟨reached, name :: queue⟩) := by
  have horder : reached = looked ++ name :: queue := h.order
  have hname : name ∈ reached := by simp [horder]
  obtain ⟨new, hfold, hnew, hall, hnodup⟩ := foldl_meet (g.successors name) ⟨reached, queue⟩
  have hnext : Search.next g ⟨reached, name :: queue⟩ = ⟨reached ++ new, queue ++ new⟩ := hfold
  rw [hnext]
  refine ⟨?_, hnodup h.nodup, List.mem_append_left _ h.start, ?_, fun other hother => ?_⟩
  · simp [horder]
  · exact List.append_subset.2
      ⟨h.sound, List.Subset.trans hnew (successors_subset_reachable hg (h.sound hname))⟩
  · rcases List.mem_append.1 hother with hother | hother
    · exact List.subset_append_of_subset_left _ (h.closed other hother)
    · exact List.mem_singleton.1 hother ▸ hall

/-- All that is reached are nonterminals, so they are no more than these. -/
theorem length_le (hg : g.WellFormed) (h : Invariant g looked s) :
    looked.length + s.queue.length ≤ g.names.length := by
  have hnames : g.reachable ⊆ g.names := saturate_subset (by simpa using hg.start_mem)
  have hlength := (List.subperm_of_subset h.nodup (List.Subset.trans h.sound hnames)).length_le
  rwa [h.order, List.length_append] at hlength

/-- The search ends, and each step has looked at one nonterminal. -/
theorem exists_iterate (hg : g.WellFormed) (h : Invariant g looked s) :
    ∃ n reached, (Search.next g)^[n] s = ⟨reached, []⟩ ∧ looked.length + n ≤ g.names.length ∧
      Invariant g reached ⟨reached, []⟩ := by
  have hle := h.length_le hg
  -- The induction is on the number of nonterminals that may still be looked at.
  induction hk : g.names.length - looked.length generalizing looked s with
  | zero =>
    obtain ⟨reached, queue⟩ := s
    obtain rfl : queue = [] := List.length_eq_zero_iff.1 (by simp only at hle; omega)
    obtain rfl : reached = looked := by simpa using h.order
    exact ⟨0, reached, rfl, hle, h⟩
  | succ k ih =>
    match s, h with
    | ⟨reached, []⟩, h =>
      obtain rfl : reached = looked := by simpa using h.order
      exact ⟨0, reached, rfl, hle, h⟩
    | ⟨reached, name :: queue⟩, h =>
      have hnext := h.next hg
      obtain ⟨n, result, hend, hn, hresult⟩ :=
        ih hnext (hnext.length_le hg)
          (by simp only [List.length_append, List.length_singleton]; omega)
      refine ⟨n + 1, result, hend, ?_, hresult⟩
      simp only [List.length_append, List.length_singleton] at hn
      omega

/-- When the queue is empty, all that can be reached is reached. -/
theorem mem_iff (hg : g.WellFormed) (h : Invariant g reached ⟨reached, []⟩) :
    name ∈ reached ↔ name ∈ g.reachable := by
  refine ⟨fun hname => h.sound hname, ?_⟩
  -- All of it has been looked at, so it is closed under the rules of the saturation.
  refine saturate_induction (P := (· ∈ reached)) (by simpa using h.start) ?_ name
  intro rule hrule known hknown other hother
  obtain ⟨r, hr, rfl⟩ := List.mem_map.1 hrule
  obtain ⟨hname, p, hp, hmem⟩ := Grammar.mem_mentions.1 hother
  rw [← hg.alternatives_eq hr] at hp
  exact h.closed r.name (hknown r.name hname) (mem_successors.2 ⟨p, hp, hmem⟩)

end Invariant

end Search

namespace Grammar

variable {g : Grammar}

/-- The first warnings are about the nonterminals without alternatives. -/
theorem filter_isEmpty_rules (hg : g.WellFormed) :
    (g.rules.filter (·.alternatives.isEmpty)).map (Warning.noProductions ·.name) =
      (g.names.filter (g.alternatives · = [])).map .noProductions := by
  rw [names, List.filter_map, List.map_map]
  refine congrArg₂ _ rfl (List.filter_congr fun r hr => ?_)
  rw [Function.comp_apply, hg.alternatives_eq hr, Bool.eq_iff_iff, List.isEmpty_iff,
    decide_eq_true_eq]

/-- The search from the start symbol ends, after no more steps than there are nonterminals, and it
has then reached the nonterminals of the forms that the start symbol derives. The warnings are first
about the nonterminals without alternatives and then about those that are not reached, each in the
order of the rules and none of them twice. -/
theorem warnings_exact (hg : g.Attainable) :
    ∃ n ≤ g.names.length, ∃ reached,
      (Search.next g)^[n] (Search.start g) = ⟨reached, []⟩ ∧
      (∀ name, name ∈ reached ↔
        ∃ v, g.Derives [.nonterminal g.start] v ∧ .nonterminal name ∈ v) ∧
      g.warnings = (g.names.filter (g.alternatives · = [])).map .noProductions ++
        (g.names.filter (· ∉ reached)).map .unreachable ∧
      g.warnings.Nodup := by
  have hwf := hg.wellFormed
  obtain ⟨n, reached, hend, hn, hresult⟩ := (Search.Invariant.initial g).exists_iterate hwf
  have hwarnings : g.warnings = (g.names.filter (g.alternatives · = [])).map .noProductions ++
      (g.names.filter (· ∉ reached)).map .unreachable := by
    simp only [warnings, filter_isEmpty_rules hwf, hresult.mem_iff hwf]
    simp
  refine ⟨n, by simpa using hn, reached, hend, fun name => ?_, hwarnings, ?_⟩
  · rw [hresult.mem_iff hwf, mem_reachable hwf]
  · rw [hwarnings]
    refine List.Nodup.append ?_ ?_ ?_
    · exact (hwf.nodup.filter _).map fun _ _ => Warning.noProductions.inj
    · exact (hwf.nodup.filter _).map fun _ _ => Warning.unreachable.inj
    · rintro _ hwarning hother
      obtain ⟨name, -, rfl⟩ := List.mem_map.1 hwarning
      simp at hother

/-- A grammar in which two nonterminals mention each other, one that only unreachable ones mention
has no alternatives, and a nonterminal is mentioned in an alternative of its own only. -/
theorem warnings_exact_of_text :
    let g : Grammar :=
      { rules := [⟨"S", [[.nonterminal "A", .terminal "a"], [.nonterminal "S"]]⟩,
          ⟨"A", [[.nonterminal "S"], [.epsilon]]⟩, ⟨"B", [[.nonterminal "C"]]⟩, ⟨"C", []⟩,
          ⟨"D", [[.terminal "d", .nonterminal "D"]]⟩]
        start := "S" }
    ofText "S -> A a | S; A -> S | ε; B -> C; C -> ; D -> d D" = .ok g ∧
      g.warnings =
        [.noProductions "C", .unreachable "B", .unreachable "C", .unreachable "D"] ∧
      ∃ n ≤ 5, ∃ reached, (Search.next g)^[n] (Search.start g) = ⟨reached, []⟩ ∧
        ∀ name, name ∈ reached ↔
          ∃ v, g.Derives [.nonterminal "S"] v ∧ .nonterminal name ∈ v := by
  intro g
  have hg : ofText "S -> A a | S; A -> S | ε; B -> C; C -> ; D -> d D" = .ok g := rfl
  obtain ⟨n, hn, reached, hend, hreached, -⟩ := warnings_exact (.ofText hg)
  refine ⟨hg, ?_, n, hn, reached, hend, hreached⟩
  simp only [g]
  cbv

end Grammar

end PredictiveParsing
