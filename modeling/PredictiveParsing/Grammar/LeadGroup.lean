import PredictiveParsing.Symbol

/-!
# Alternatives with a common beginning

Alternatives are grouped by their first symbol, and the longest common beginning of a group is
found. An alternative for the empty word has no first symbol and stays alone.

## Main definitions

* `leadGroups`: the alternatives grouped by first symbol.
* `sharedPrefix`: the longest common beginning of some alternatives.

## Main statements

* `totalSize_groupRelated`: grouping neither loses nor doubles a symbol.
* `sharedPrefix_of_lead`: alternatives led by one symbol share it.
-/

namespace PredictiveParsing

/-! ## Groups -/

def unrelated {α : Type} (related : α → α → Bool) (x : α) (xs : List α) : List α :=
  xs.filter (!related x ·)

/-- Puts every element together with the later elements related to it, in order of the first of
each group. -/
def groupRelated {α : Type} (related : α → α → Bool) : List α → List (List α)
  | [] => []
  | x :: xs => (x :: xs.filter (related x)) :: groupRelated related (unrelated related x xs)
termination_by xs => xs.length
decreasing_by exact Nat.lt_succ_of_le (List.length_filter_le ..)

/-- Whether two alternatives begin with the same symbol. Alternatives for the empty word begin with
none. -/
def Alternative.sharesLead (p q : Alternative) : Bool := p.lead.isSome && p.lead == q.lead

def leadGroups (alternatives : List Alternative) : List (List (Alternative × Nat)) :=
  groupRelated (fun p q => Alternative.sharesLead p.1 q.1) alternatives.zipIdx

/-! ## Shared beginnings -/

def Alternative.commonPrefix : Alternative → Alternative → Alternative
  | a :: p, b :: q => if a == b then a :: commonPrefix p q else []
  | _, _ => []

/-- The longest common beginning of some alternatives. -/
def sharedPrefix : List Alternative → Alternative
  | [] => []
  | p :: ps => ps.foldl Alternative.commonPrefix p

/-! ## Sizes -/

def Alternative.size (p : Alternative) : Nat := p.countP (· != .epsilon)

def total (ns : List Nat) : Nat := ns.foldr (· + ·) 0

@[simp] theorem total_nil : total [] = 0 := rfl

@[simp] theorem total_cons (n : Nat) (ns : List Nat) : total (n :: ns) = n + total ns := rfl

@[simp] theorem total_append (ms ns : List Nat) : total (ms ++ ns) = total ms + total ns := by
  induction ms with
  | nil => simp
  | cons m ms ih =>
    simp only [List.cons_append, total_cons, ih]
    omega

def totalSize (ps : List Alternative) : Nat := total (ps.map Alternative.size)

theorem totalSize_filter_add {α : Type} (f : α → Alternative) (p : α → Bool) (xs : List α) :
    totalSize ((xs.filter p).map f) + totalSize ((xs.filter (!p ·)).map f)
      = totalSize (xs.map f) := by
  induction xs with
  | nil => rfl
  | cons x xs ih => cases h : p x <;> simp [totalSize, h] at ih ⊢ <;> omega

theorem totalSize_groupRelated {α : Type} (f : α → Alternative) (related : α → α → Bool)
    (xs : List α) :
    total ((groupRelated related xs).map fun group => totalSize (group.map f))
      = totalSize (xs.map f) := by
  fun_induction groupRelated related xs with
  | case1 => rfl
  | case2 x xs ih =>
    have := totalSize_filter_add f (related x) xs
    rw [List.map_cons, total_cons, ih]
    simp only [unrelated, totalSize, List.map_cons, total_cons] at this ⊢
    omega

theorem mem_groupRelated {α : Type} {related : α → α → Bool} {xs group : List α}
    (h : group ∈ groupRelated related xs) :
    ∃ x rest, group = x :: rest ∧ ∀ y ∈ rest, related x y := by
  fun_induction groupRelated related xs with
  | case1 => simp at h
  | case2 x xs ih =>
    rcases List.mem_cons.1 h with rfl | h
    · exact ⟨x, _, rfl, fun y hy => (List.mem_filter.1 hy).2⟩
    · exact ih h

/-- An alternative that is led by a symbol consists of it and others, and it is not the empty
word. -/
theorem Alternative.lead_eq_some {p : Alternative} {s : Symbol} :
    p.lead = some s ↔ s ≠ .epsilon ∧ ∃ q, p = s :: q := by
  cases p with
  | nil => simp [lead]
  | cons a p => simp [lead, Option.filter]; grind

theorem Alternative.sharesLead_iff {p q : Alternative} :
    p.sharesLead q = true ↔ ∃ s, p.lead = some s ∧ q.lead = some s := by
  simp only [sharesLead, Bool.and_eq_true, Option.isSome_iff_exists, beq_iff_eq]
  exact ⟨fun ⟨⟨s, hs⟩, hpq⟩ => ⟨s, hs, hpq ▸ hs⟩, fun ⟨s, hp, hq⟩ => ⟨⟨s, hp⟩, hp.trans hq.symm⟩⟩

/-- Two or more alternatives that begin with the same symbol are led by it. -/
theorem Alternative.exists_lead_of_sharesLead {p q : Alternative} {ps : List Alternative}
    (h : ∀ r ∈ q :: ps, p.sharesLead r) : ∃ s, ∀ r ∈ p :: q :: ps, Alternative.lead r = some s := by
  obtain ⟨s, hp, -⟩ := sharesLead_iff.1 (h q List.mem_cons_self)
  refine ⟨s, fun r hr => ?_⟩
  rcases List.mem_cons.1 hr with rfl | hr
  · exact hp
  · obtain ⟨s', hp', hr⟩ := sharesLead_iff.1 (h r hr)
    rw [hr, ← hp, hp']

theorem exists_cons_of_mem_leadGroups {ps group : List Alternative}
    (h : group ∈ (leadGroups ps).map (·.map Prod.fst)) :
    ∃ q qs, group = q :: qs ∧ ∀ r ∈ qs, Alternative.sharesLead q r := by
  obtain ⟨pairs, hpairs, rfl⟩ := List.mem_map.1 h
  obtain ⟨x, rest, rfl, hx⟩ := mem_groupRelated hpairs
  refine ⟨x.1, rest.map Prod.fst, rfl, fun r hr => ?_⟩
  obtain ⟨y, hy, rfl⟩ := List.mem_map.1 hr
  exact hx y hy

theorem Alternative.commonPrefix_of_lead {p q : Alternative} {s : Symbol} (hp : ∃ p', p = s :: p')
    (hq : q.lead = some s) : ∃ r, p.commonPrefix q = s :: r := by
  obtain ⟨p', rfl⟩ := hp
  obtain ⟨_, q', rfl⟩ := lead_eq_some.1 hq
  exact ⟨commonPrefix p' q', by simp [commonPrefix]⟩

/-- Alternatives led by one symbol share it. -/
theorem sharedPrefix_of_lead {s : Symbol} {ps : List Alternative} (hne : ps ≠ [])
    (h : ∀ p ∈ ps, Alternative.lead p = some s) : ∃ r, sharedPrefix ps = s :: r := by
  obtain ⟨p, ps, rfl⟩ := List.exists_cons_of_ne_nil hne
  obtain ⟨_, hp⟩ := Alternative.lead_eq_some.1 (h p (by simp))
  have hps : ∀ q ∈ ps, Alternative.lead q = some s := fun q hq => h q (by simp [hq])
  simp only [sharedPrefix]
  clear h hne
  induction ps generalizing p with
  | nil => exact hp
  | cons q ps ih =>
    exact ih _ (Alternative.commonPrefix_of_lead hp (hps q (by simp)))
      fun r hr => hps r (by simp [hr])

end PredictiveParsing
