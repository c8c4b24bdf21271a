import PredictiveParsing.Grammar.Fresh
import PredictiveParsing.Grammar.LeadGroup

/-!
# Left factoring

Alternatives of a rule that begin with the same symbol are replaced by what they share followed by a
new nonterminal, which derives the different remainders. The new rules are factored in turn.

Each member of a group loses at least its first symbol, so the rules that one rule adds weigh less
than this rule, and the work comes to an end.

## Main definitions

* `Grammar.factorRule`: one rule factored, with the rules that this adds.
* `Grammar.leftFactor`: all rules of a grammar, the added ones included.

## Main statements

* `Grammar.weight_factorRule_lt`: the added rules weigh less than the factored one.
-/

namespace PredictiveParsing

/-- What an alternative has after its first `n` symbols, the empty word if nothing is left. -/
def Alternative.remainder (n : Nat) (p : Alternative) : Alternative :=
  if p.length == n then [.epsilon] else p.drop n

/-! ## Factoring -/

/-- A rule part way through: the grammar so far, the rule after which the next one goes, the
alternatives that the rule has now, and the rules added for it. -/
structure Factoring where
  grammar : Grammar
  last : String
  alternatives : List Alternative
  added : List Rule

/-- Treats one group of alternatives of the nonterminal `name`. A group of one stays as it is. -/
def Factoring.addGroup (name : String) (f : Factoring) : List Alternative → Factoring
  | [p] => { f with alternatives := f.alternatives ++ [p] }
  | members =>
    let shared := sharedPrefix members
    let (fresh, counted) := f.grammar.fresh name
    let rule : Rule := ⟨fresh, members.map (Alternative.remainder shared.length)⟩
    { grammar := counted.insertAfter f.last rule
      last := fresh
      alternatives := f.alternatives ++ [shared ++ [.nonterminal fresh]]
      added := f.added ++ [rule] }

namespace Grammar

def factorGroups (g : Grammar) (r : Rule) : Factoring :=
  ((leadGroups r.alternatives).map (·.map Prod.fst)).foldl (Factoring.addGroup r.name)
    ⟨g, r.name, [], []⟩

/-- Factors the rule `r` within `g`, and gives the rules that this adds. -/
def factorRule (g : Grammar) (r : Rule) : Grammar × List Rule :=
  let f := g.factorGroups r
  (f.grammar.setAlternatives r.name f.alternatives, f.added)

end Grammar

/-! ## The work ends -/

def Rule.weight (r : Rule) : Nat := totalSize r.alternatives + 1

def totalWeight (rs : List Rule) : Nat := total (rs.map Rule.weight)

theorem totalWeight_append (rs ss : List Rule) :
    totalWeight (rs ++ ss) = totalWeight rs + totalWeight ss := by
  simp [totalWeight]

theorem Alternative.size_remainder_le (n : Nat) (p : Alternative) :
    (p.remainder n).size ≤ Alternative.size (p.drop n) := by
  unfold remainder
  split <;> simp [size]

theorem Alternative.size_remainder_lt {s : Symbol} {p : Alternative} (n : Nat)
    (h : p.lead = some s) : (p.remainder (n + 1)).size < p.size := by
  obtain ⟨hs, q, rfl⟩ := lead_eq_some.1 h
  have hle := size_remainder_le (n + 1) (s :: q)
  have hdrop : Alternative.size (q.drop n) ≤ Alternative.size q :=
    (List.drop_sublist n q).countP_le
  have hsize : Alternative.size (s :: q) = Alternative.size q + 1 := by simp [size, hs]
  simp only [List.drop_succ_cons] at hle
  omega

theorem totalSize_remainders {s : Symbol} (n : Nat) {ps : List Alternative}
    (h : ∀ p ∈ ps, Alternative.lead p = some s) :
    totalSize (ps.map (Alternative.remainder (n + 1))) + ps.length ≤ totalSize ps := by
  induction ps with
  | nil => simp
  | cons p ps ih =>
    have hp := Alternative.size_remainder_lt n (h p (by simp))
    have := ih fun q hq => h q (by simp [hq])
    simp [totalSize] at this ⊢
    omega

/-- A group adds to the weight at most the number of its symbols. -/
theorem Factoring.totalWeight_addGroup_le (name : String) (f : Factoring) {p : Alternative}
    {ps : List Alternative} (h : ∀ q ∈ ps, Alternative.sharesLead p q) :
    totalWeight (f.addGroup name (p :: ps)).added ≤ totalWeight f.added + totalSize (p :: ps) := by
  cases ps with
  | nil => simp [addGroup]
  | cons q qs =>
    obtain ⟨s, hall⟩ := Alternative.exists_lead_of_sharesLead h
    obtain ⟨t, ht⟩ := sharedPrefix_of_lead (by simp) hall
    have hsize := totalSize_remainders t.length hall
    simp only [addGroup, ht, totalWeight_append, List.length_cons] at hsize ⊢
    simp only [totalWeight, Rule.weight, List.map_cons, List.map_nil, total_cons,
      total_nil] at hsize ⊢
    omega

theorem Factoring.totalWeight_addGroups_le (name : String) (f : Factoring)
    {groups : List (List Alternative)}
    (h : ∀ group ∈ groups, ∃ p ps, group = p :: ps ∧ ∀ q ∈ ps, Alternative.sharesLead p q) :
    totalWeight (groups.foldl (addGroup name) f).added
      ≤ totalWeight f.added + total (groups.map totalSize) := by
  induction groups generalizing f with
  | nil => simp
  | cons group groups ih =>
    obtain ⟨p, ps, rfl, hp⟩ := h group (by simp)
    have := totalWeight_addGroup_le name f hp
    have := ih (f.addGroup name (p :: ps)) fun group hg => h group (by simp [hg])
    simp only [List.foldl_cons, List.map_cons, total_cons]
    omega

namespace Grammar

/-- The rules added for a rule weigh less than this rule. -/
theorem weight_factorRule_lt (g : Grammar) (r : Rule) :
    totalWeight (g.factorRule r).2 < r.weight := by
  have hle := Factoring.totalWeight_addGroups_le r.name ⟨g, r.name, [], []⟩
    fun _ => @exists_cons_of_mem_leadGroups r.alternatives _
  have hsum := totalSize_groupRelated Prod.fst
    (fun p q : Alternative × Nat => Alternative.sharesLead p.1 q.1) r.alternatives.zipIdx
  simp only [List.zipIdx_map_fst] at hsum
  simp only [List.map_map, leadGroups, Function.comp_def, hsum, totalWeight, List.map_nil,
    total_nil] at hle
  simp only [factorRule, factorGroups, Rule.weight, leadGroups, totalWeight]
  omega

/-- Factors the rules of a queue within `g`. The rules that are added go to its end. -/
def factorQueue (g : Grammar) : List Rule → Grammar
  | [] => g
  | r :: queue => factorQueue (g.factorRule r).1 (queue ++ (g.factorRule r).2)
termination_by queue => totalWeight queue
decreasing_by
  have := weight_factorRule_lt g r
  rw [totalWeight_append]
  simp only [totalWeight, List.map_cons, total_cons] at this ⊢
  omega

/-- Factors every rule, those added on the way included. -/
def leftFactor (g : Grammar) : Grammar := g.factorQueue g.rules

end Grammar

end PredictiveParsing
