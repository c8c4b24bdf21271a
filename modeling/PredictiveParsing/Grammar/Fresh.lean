import PredictiveParsing.Grammar.Basic

/-!
# Fresh names

A new nonterminal is named after the one it helps: the name with a prime, or with a prime and a
number if that is taken. Whether a name is taken is asked of the index and the list of terminals,
and not of the alternatives.

The numbers are tried one after the other. Different numbers make different names, so each number
that is passed over leaves fewer names that can still be met, and the search ends.

## Main definitions

* `Grammar.isTaken`: whether a name is in use.
* `Grammar.fresh`: a name that is not in use, and the grammar that has counted it.
-/

namespace PredictiveParsing.Grammar

/-- Whether the index or the terminals, the end marker included, have the name. -/
def isTaken (g : Grammar) (name : String) : Bool :=
  g.declares name || g.terminals.any (·.name == name)

def numbered (base : String) (n : Nat) : String := base ++ "'" ++ toString n

/-! ## The search ends -/

theorem numbered_inj {base : String} {m n : Nat} (h : numbered base m = numbered base n) :
    m = n := by
  have hrepr : m.repr = n.repr := by simpa [numbered, String.append_right_inj] using h
  have hdigits : Nat.toDigits 10 m = Nat.toDigits 10 n := by
    simpa only [Nat.toList_repr] using congrArg String.toList hrepr
  have := congrArg (Nat.ofDigitChars 10 · 0) hdigits
  simpa only [Nat.ofDigitChars_toDigits (by decide : 1 < 10) (by decide : 10 ≤ 10)] using this

def taken (g : Grammar) : List String := g.index.map Prod.fst ++ g.terminals.map Symbol.name

theorem isTaken_iff {g : Grammar} {name : String} : g.isTaken name ↔ name ∈ g.taken := by
  simp [isTaken, taken, declares]

open Classical in
/-- The number of taken names that a search behind `n` can still meet. -/
noncomputable def ahead (g : Grammar) (base : String) (n : Nat) : Nat :=
  (g.taken.filter fun name => ∃ m, n < m ∧ name = numbered base m).length

theorem ahead_lt {g : Grammar} {base : String} {n : Nat} (h : g.isTaken (numbered base (n + 1))) :
    g.ahead base (n + 1) < g.ahead base n := by
  classical
  let met (n : Nat) (name : String) : Bool := decide (∃ m, n < m ∧ name = numbered base m)
  have hnested : g.taken.filter (met (n + 1)) = (g.taken.filter (met n)).filter (met (n + 1)) := by
    rw [List.filter_filter]
    refine List.filter_congr fun name _ => Bool.eq_iff_iff.2 ?_
    simp only [met, Bool.and_eq_true, decide_eq_true_iff]
    exact ⟨fun ⟨m, hm, hname⟩ => ⟨⟨m, hm, hname⟩, m, by omega, hname⟩, And.left⟩
  change (g.taken.filter (met (n + 1))).length < (g.taken.filter (met n)).length
  rw [hnested]
  -- The name at hand is met behind `n`, but not behind `n + 1`.
  refine List.length_filter_lt_length_iff_exists.2 ⟨numbered base (n + 1), ?_, ?_⟩
  · exact List.mem_filter.2 ⟨isTaken_iff.1 h, decide_eq_true ⟨n + 1, by omega, rfl⟩⟩
  · simp only [met, decide_eq_true_iff]
    rintro ⟨m, hm, hname⟩
    have := numbered_inj hname
    omega

/-- The first number behind `n` whose name is not taken. -/
def nextFree (g : Grammar) (base : String) (n : Nat) : Nat :=
  if g.isTaken (numbered base (n + 1)) then g.nextFree base (n + 1) else n + 1
termination_by g.ahead base n
decreasing_by exact ahead_lt ‹_›

/-- A name for a nonterminal derived from `base` that no symbol of `g` has. The primed name is the
first choice; after it the count of minted names goes on. -/
def fresh (g : Grammar) (base : String) : String × Grammar :=
  if g.isTaken (base ++ "'") then
    let n := g.nextFree base g.minted
    (numbered base n, g.withMinted n)
  else
    (base ++ "'", g)

end PredictiveParsing.Grammar
