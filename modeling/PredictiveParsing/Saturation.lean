/-!
# Saturation of a finite domain

Sets that are defined by rules, such as the symbols that can begin a word, are computed in rounds.
In a round every rule in turn adds what it gives for all that is known by then, and the rounds go on
until one of them adds nothing. All elements come from a finite domain, so this ends.

## Main definitions

* `gain`: what one rule adds.
* `sweep`: one round.
* `saturate`: the elements known after the last round.

## Main statements

* `sweep_saturate`: another round adds nothing.
* `saturate_closed`: what a rule gives for the result is in the result.
* `saturate_induction`: what the rules preserve holds of all elements of the result.
-/

namespace PredictiveParsing

variable {α : Type} [DecidableEq α]

/-- The elements of the domain that a rule gives for `known` and that are not in it. -/
def gain (domain : List α) (rule : List α → List α) (known : List α) : List α :=
  ((rule known).filter fun x => !known.contains x && domain.contains x).eraseDups

/-- One round: every rule in turn adds what it gives for all that is known by then. -/
def sweep (domain : List α) (rules : List (List α → List α)) (known : List α) : List α :=
  rules.foldl (fun known rule => known ++ gain domain rule known) known

def missing (domain known : List α) : List α := domain.filter (!known.contains ·)

theorem mem_gain {domain : List α} {rule : List α → List α} {known : List α} {x : α} :
    x ∈ gain domain rule known ↔ x ∈ domain ∧ x ∈ rule known ∧ x ∉ known := by
  simp [gain, and_comm, and_assoc]

/-- A round keeps what is known and adds new elements of the domain only. -/
theorem sweep_eq_append (domain : List α) (rules : List (List α → List α)) (known : List α) :
    ∃ new, sweep domain rules known = known ++ new ∧ ∀ x ∈ new, x ∈ domain ∧ x ∉ known := by
  induction rules generalizing known with
  | nil => exact ⟨[], by simp [sweep]⟩
  | cons rule rules ih =>
    obtain ⟨new, hnew, hmem⟩ := ih (known ++ gain domain rule known)
    refine ⟨gain domain rule known ++ new, ?_, fun x hx => ?_⟩
    · rw [← List.append_assoc, ← hnew]
      rfl
    · rcases List.mem_append.1 hx with hx | hx
      · exact ⟨(mem_gain.1 hx).1, (mem_gain.1 hx).2.2⟩
      · exact ⟨(hmem x hx).1, fun hk => (hmem x hx).2 (List.mem_append_left _ hk)⟩

theorem length_missing_sweep_lt {domain : List α} {rules : List (List α → List α)}
    {known : List α} (h : (sweep domain rules known).length ≠ known.length) :
    (missing domain (sweep domain rules known)).length < (missing domain known).length := by
  obtain ⟨new, hnew, hmem⟩ := sweep_eq_append domain rules known
  rw [hnew] at h ⊢
  obtain ⟨x, hx⟩ : ∃ x, x ∈ new := List.exists_mem_of_ne_nil new (by rintro rfl; simp at h)
  obtain ⟨hd, hk⟩ := hmem x hx
  have hsplit : missing domain (known ++ new)
      = (missing domain known).filter (!new.contains ·) := by
    simp only [missing, List.filter_filter, List.contains_append, Bool.not_or, Bool.and_comm]
  rw [hsplit]
  exact List.length_filter_lt_length_iff_exists.2 ⟨x, by simp [missing, hd, hk], by simp [hx]⟩

/-- Adds to `known`, round by round, the elements of the domain that the rules give. -/
def saturate (domain : List α) (rules : List (List α → List α)) (known : List α) : List α :=
  if (sweep domain rules known).length = known.length then known
  else saturate domain rules (sweep domain rules known)
termination_by (missing domain known).length
decreasing_by exact length_missing_sweep_lt ‹_›

/-- The rounds go on until one of them adds nothing. -/
theorem sweep_saturate (domain : List α) (rules : List (List α → List α)) (known : List α) :
    sweep domain rules (saturate domain rules known) = saturate domain rules known := by
  fun_induction saturate domain rules known with
  | case1 known h =>
    obtain ⟨new, hnew, -⟩ := sweep_eq_append domain rules known
    have : new = [] := by simpa [hnew] using h
    simp [hnew, this]
  | case2 known h ih => exact ih

theorem subset_saturate (domain : List α) (rules : List (List α → List α)) (known : List α) :
    known ⊆ saturate domain rules known := by
  fun_induction saturate domain rules known with
  | case1 known h => exact List.Subset.refl known
  | case2 known h ih =>
    obtain ⟨new, hnew, -⟩ := sweep_eq_append domain rules known
    intro x hx
    exact ih (by simp [hnew, hx])

theorem gain_eq_nil_of_sweep {domain : List α} {rules : List (List α → List α)} {known : List α}
    (h : sweep domain rules known = known) {rule : List α → List α} (hrule : rule ∈ rules) :
    gain domain rule known = [] := by
  induction rules with
  | nil => simp at hrule
  | cons first rules ih =>
    -- The first rule adds nothing, since no later rule takes anything away.
    obtain ⟨new, hnew, -⟩ := sweep_eq_append domain rules (known ++ gain domain first known)
    have hsweep : sweep domain (first :: rules) known
        = sweep domain rules (known ++ gain domain first known) := rfl
    have hfirst : gain domain first known = [] := by
      have := congrArg List.length (hsweep.symm.trans h)
      rw [hnew] at this
      simp only [List.length_append] at this
      exact List.length_eq_zero_iff.1 (by omega)
    rcases List.mem_cons.1 hrule with rfl | hrule
    · exact hfirst
    · exact ih (by simpa [hsweep, hfirst] using h) hrule

/-- What a rule gives for the result is in the result, if it is in the domain. -/
theorem saturate_closed {domain : List α} {rules : List (List α → List α)} {known : List α}
    {rule : List α → List α} (hrule : rule ∈ rules) {x : α} (hx : x ∈ domain)
    (h : x ∈ rule (saturate domain rules known)) : x ∈ saturate domain rules known := by
  have hgain := gain_eq_nil_of_sweep (sweep_saturate domain rules known) hrule
  by_cases hk : x ∈ saturate domain rules known
  · exact hk
  · have := mem_gain.2 ⟨hx, h, hk⟩
    simp [hgain] at this

theorem sweep_induction {P : α → Prop} {domain : List α} {rules : List (List α → List α)}
    {known : List α} (hknown : ∀ x ∈ known, P x)
    (hrules : ∀ rule ∈ rules, ∀ known, (∀ x ∈ known, P x) → ∀ x ∈ rule known, P x) :
    ∀ x ∈ sweep domain rules known, P x := by
  induction rules generalizing known with
  | nil => exact hknown
  | cons rule rules ih =>
    refine ih (fun x hx => ?_) fun r hr => hrules r (List.mem_cons_of_mem _ hr)
    rcases List.mem_append.1 hx with hx | hx
    · exact hknown x hx
    · exact hrules rule List.mem_cons_self known hknown x (mem_gain.1 hx).2.1

/-- What holds of the elements known at first and is preserved by every rule holds of all elements
of the result. -/
theorem saturate_induction {P : α → Prop} {domain : List α} {rules : List (List α → List α)}
    {known : List α} (hknown : ∀ x ∈ known, P x)
    (hrules : ∀ rule ∈ rules, ∀ known, (∀ x ∈ known, P x) → ∀ x ∈ rule known, P x) :
    ∀ x ∈ saturate domain rules known, P x := by
  fun_induction saturate domain rules known with
  | case1 known h => exact hknown
  | case2 known h ih => exact ih (sweep_induction hknown hrules)

theorem mem_domain_of_mem_saturate {domain : List α} {rules : List (List α → List α)}
    {known : List α} (hknown : ∀ x ∈ known, x ∈ domain) :
    ∀ x ∈ saturate domain rules known, x ∈ domain := by
  fun_induction saturate domain rules known with
  | case1 known h => exact hknown
  | case2 known h ih =>
    obtain ⟨new, hnew, hmem⟩ := sweep_eq_append domain rules known
    refine ih fun x hx => ?_
    rcases List.mem_append.1 (hnew ▸ hx) with hx | hx
    · exact hknown x hx
    · exact (hmem x hx).1

end PredictiveParsing
