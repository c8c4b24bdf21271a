import Mathlib.Logic.Function.Iterate
import PredictiveParsing.Saturation

/-!
# Rounds without a domain

The domain of a saturation makes it plain that the rounds come to an end, but it must not be the
reason why they do. Where the rules never lead out of the domain, rounds that know nothing of it add
the same elements, and so they come to an end at the same result.

## Main definitions

* `round`: one round of rules whose elements may be anything.
* `StaysIn`: rules that never lead out of a domain.

## Main statements

* `saturate_eq_iterate_round`: the result is that of the first round after which nothing changes.
-/

namespace PredictiveParsing

variable {α : Type} [DecidableEq α] {domain known : List α} {rules : List (List α → List α)}

/-- One round: every rule in turn adds all that it gives for what is known by then. -/
def round (rules : List (List α → List α)) (known : List α) : List α :=
  rules.foldl (fun known rule => known ++ ((rule known).filter (!known.contains ·)).eraseDups) known

/-- Rules that give elements of the domain only, as long as no others are known. -/
def StaysIn (domain : List α) (rules : List (List α → List α)) : Prop :=
  ∀ rule ∈ rules, ∀ known ⊆ domain, rule known ⊆ domain

theorem sweep_subset (h : known ⊆ domain) : sweep domain rules known ⊆ domain := by
  obtain ⟨new, hnew, hmem⟩ := sweep_eq_append domain rules known
  rw [hnew]
  exact List.append_subset.2 ⟨h, fun x hx => (hmem x hx).1⟩

/-- The domain takes nothing away in a round. -/
theorem round_eq_sweep (hrules : StaysIn domain rules) (hknown : known ⊆ domain) :
    round rules known = sweep domain rules known := by
  induction rules generalizing known with
  | nil => rfl
  | cons rule rules ih =>
    have hrule := hrules rule List.mem_cons_self known hknown
    have hgain : ((rule known).filter (!known.contains ·)).eraseDups = gain domain rule known := by
      unfold gain
      congr 1
      apply List.filter_congr
      intro x hx
      simp [hrule hx]
    have hnext : known ++ gain domain rule known ⊆ domain :=
      List.append_subset.2 ⟨hknown, fun x hx => (mem_gain.1 hx).1⟩
    calc round (rule :: rules) known
        = round rules (known ++ gain domain rule known) := by rw [← hgain]; rfl
      _ = sweep domain (rule :: rules) known :=
          ih (fun r hr => hrules r (List.mem_cons_of_mem _ hr)) hnext

/-- The result is that of the first round after which nothing changes. -/
theorem saturate_eq_iterate_round (hrules : StaysIn domain rules) (hknown : known ⊆ domain) :
    ∃ n, saturate domain rules known = (round rules)^[n] known ∧
      ∀ m < n, round rules ((round rules)^[m] known) ≠ (round rules)^[m] known := by
  fun_induction saturate domain rules known with
  | case1 known h => exact ⟨0, rfl, by simp⟩
  | case2 known h ih =>
    obtain ⟨n, hn, hfirst⟩ := ih (sweep_subset hknown)
    rw [← round_eq_sweep hrules hknown] at hn hfirst h ⊢
    refine ⟨n + 1, hn, fun m hm => ?_⟩
    cases m with
    | zero => exact fun heq => h (congrArg List.length heq)
    | succ m => exact hfirst m (Nat.lt_of_succ_lt_succ hm)

theorem saturate_subset (hknown : known ⊆ domain) : saturate domain rules known ⊆ domain :=
  mem_domain_of_mem_saturate fun _ hx => hknown hx

theorem round_saturate (hrules : StaysIn domain rules) (hknown : known ⊆ domain) :
    round rules (saturate domain rules known) = saturate domain rules known := by
  rw [round_eq_sweep hrules (saturate_subset hknown), sweep_saturate]

/-- What a rule gives for the result is in the result. -/
theorem rule_saturate_subset (hrules : StaysIn domain rules) (hknown : known ⊆ domain)
    {rule : List α → List α} (hrule : rule ∈ rules) :
    rule (saturate domain rules known) ⊆ saturate domain rules known := fun _ hx =>
  saturate_closed hrule (hrules rule hrule _ (saturate_subset hknown) hx) hx

end PredictiveParsing
