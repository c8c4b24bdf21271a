import PredictiveParsing.Proofs.Edits

/-!
# Fresh names are fresh

The search for a numbered name stops at the first number whose name is not taken, so the numbers
before it are taken, and there are no more of these than names.

## Main statements

* `Grammar.fresh_not_mem_taken`: a fresh name is no name of a symbol in use.
* `Grammar.toList_fresh`: a fresh name has a prime.
-/

namespace PredictiveParsing.Grammar

variable {g : Grammar} {base : String}

theorem lt_nextFree (g : Grammar) (base : String) (n : Nat) : n < g.nextFree base n := by
  fun_induction nextFree g base n with
  | case1 n h ih => omega
  | case2 n h => omega

/-- Each number that is passed over has a name that is taken. -/
theorem isTaken_of_lt_nextFree {m n : Nat} (hm : n < m) (h : m < g.nextFree base n) :
    g.isTaken (numbered base m) := by
  fun_induction nextFree g base n with
  | case1 n htaken ih =>
    rcases Nat.eq_or_lt_of_le (Nat.succ_le_of_lt hm) with rfl | hlt
    · exact htaken
    · exact ih hlt h
  | case2 n => omega

/-- No more numbers are passed over than there are names. -/
theorem nextFree_le (g : Grammar) (base : String) (n : Nat) :
    g.nextFree base n ≤ n + g.taken.length + 1 := by
  have hahead : g.nextFree base n ≤ n + g.ahead base n + 1 := by
    fun_induction nextFree g base n with
    | case1 n htaken ih =>
      have := ahead_lt htaken
      omega
    | case2 n => omega
  have : g.ahead base n ≤ g.taken.length := List.length_filter_le ..
  omega

theorem not_isTaken_nextFree (g : Grammar) (base : String) (n : Nat) :
    ¬ g.isTaken (numbered base (g.nextFree base n)) := by
  fun_induction nextFree g base n with
  | case1 n h ih => exact ih
  | case2 n h => exact h

/-- A fresh name is not taken. -/
theorem not_isTaken_fresh (g : Grammar) (base : String) : ¬ g.isTaken (g.fresh base).1 := by
  unfold fresh
  split
  · exact not_isTaken_nextFree g base g.minted
  · assumption

/-- A fresh name is not the name of a nonterminal or a terminal. -/
theorem fresh_not_mem_taken (g : Grammar) (base : String) : (g.fresh base).1 ∉ g.taken :=
  mt isTaken_iff.2 (not_isTaken_fresh g base)

theorem fresh_not_mem_names (g : Grammar) (base : String) : (g.fresh base).1 ∉ g.names :=
  fun h => not_isTaken_fresh g base (Bool.or_eq_true_iff.2 (.inl (declares_iff.2 h)))

/-- A fresh name is a name with a prime, and maybe with digits. -/
theorem toList_fresh (g : Grammar) (base : String) :
    ∃ digits : List Char, (g.fresh base).1.toList = base.toList ++ '\'' :: digits ∧
      ∀ d ∈ digits, d.isDigit := by
  unfold fresh
  split
  · refine ⟨Nat.toDigits 10 (g.nextFree base g.minted), ?_, fun d hd => ?_⟩
    · simp [numbered, Nat.toList_repr]
    · exact Nat.isDigit_of_mem_toDigits (by decide) (by decide) hd
  · exact ⟨[], by simp, by simp⟩

/-! ## Counting a name changes no rule -/

@[simp] theorem rules_fresh : (g.fresh base).2.rules = g.rules := by
  unfold fresh
  split <;> rfl

@[simp] theorem start_fresh : (g.fresh base).2.start = g.start := by
  unfold fresh
  split <;> rfl

@[simp] theorem names_fresh : (g.fresh base).2.names = g.names := by
  simp [names]

@[simp] theorem alternatives_fresh (name : String) :
    (g.fresh base).2.alternatives name = g.alternatives name := by
  simp [alternatives, rule?_eq]

end PredictiveParsing.Grammar
