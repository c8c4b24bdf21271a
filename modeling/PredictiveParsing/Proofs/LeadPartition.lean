import Mathlib.Data.List.Pairwise
import Mathlib.Data.List.Sort
import Mathlib.Order.Bounds.Defs
import PredictiveParsing.Proofs.Factored

/-!
# Groups and what their members share

The groups of some alternatives are found in one pass, and so is the number of symbols that they
share. Both are determined by what they are: the groups are a partition of the places by first
symbol, and the number is the greatest for which the alternatives agree. The members of a group of
two or more share at least the symbol that puts them into the group.

## Main definitions

* `joinGroup`: one more element is put into its group.
* `IsLeadPartition`: the partition of the places of some alternatives by first symbol.
* `Agree`, `agreement`: some alternatives have the same first symbols.
* `Strips`: a rule has what is left of some alternatives behind what they share.

## Main statements

* `groupRelated_eq_foldl`, `length_sharedPrefix`: what is found in one pass.
* `leadPlaces_eq_iff`: the groups are the partition by first symbol, and there is no other.
* `Grammar.forall₂_strips_factorRule`: the rules that factoring adds have lost a symbol everywhere.
-/

namespace PredictiveParsing

/-! ## Groups by a relation -/

section Groups

variable {α : Type} {related : α → α → Bool} {xs group : List α} {x y : α}

/-- One more element joins the first group that begins with an element related to it. If there is
none, it begins a group of its own. -/
def joinGroup (related : α → α → Bool) : List (List α) → α → List (List α)
  | [], x => [[x]]
  | group :: groups, x =>
    if group.head?.any (related · x) then (group ++ [x]) :: groups
    else group :: joinGroup related groups x

theorem groupRelated_concat (related : α → α → Bool) (xs : List α) (x : α) :
    groupRelated related (xs ++ [x]) = joinGroup related (groupRelated related xs) x := by
  fun_induction groupRelated related xs with
  | case1 => simp [groupRelated, unrelated, joinGroup]
  | case2 y xs ih =>
    rw [List.cons_append, groupRelated]
    cases hyx : related y x with
    | true => simp [unrelated, joinGroup, hyx]
    | false => simpa [unrelated, joinGroup, hyx] using ih

/-- The groups are found in one pass. -/
theorem groupRelated_eq_foldl (related : α → α → Bool) (xs : List α) :
    groupRelated related xs = xs.foldl (joinGroup related) [] := by
  induction xs using List.reverseRecOn with
  | nil => rw [groupRelated, List.foldl_nil]
  | append_singleton xs x ih => rw [groupRelated_concat, ih, List.foldl_concat]

theorem sublist_of_mem_groupRelated (h : group ∈ groupRelated related xs) :
    group.Sublist xs := by
  fun_induction groupRelated related xs with
  | case1 => simp at h
  | case2 x xs ih =>
    rcases List.mem_cons.1 h with rfl | h
    · exact List.filter_sublist.cons_cons x
    · exact ((ih h).trans List.filter_sublist).cons x

/-- The first elements of the groups come in their old order. -/
theorem firsts_groupRelated_sublist (related : α → α → Bool) (xs : List α) :
    ((groupRelated related xs).filterMap List.head?).Sublist xs := by
  fun_induction groupRelated related xs with
  | case1 => exact .slnil
  | case2 x xs ih => exact (ih.trans List.filter_sublist).cons_cons x

/-- Two elements are in the same group exactly if they are related. -/
theorem exists_group_iff (hsymm : ∀ {x y}, related x y → related y x)
    (htrans : ∀ {x y z}, related x y → related y z → related x z) (hx : x ∈ xs) (hy : y ∈ xs)
    (hne : x ≠ y) :
    (∃ group ∈ groupRelated related xs, x ∈ group ∧ y ∈ group) ↔ related x y := by
  constructor
  · rintro ⟨group, hgroup, hx', hy'⟩
    obtain ⟨z, rest, rfl, hz⟩ := mem_groupRelated hgroup
    rcases List.mem_cons.1 hx' with rfl | hx'
    · exact hz y ((List.mem_cons.1 hy').resolve_left hne.symm)
    have hxz : related x z := hsymm (hz x hx')
    rcases List.mem_cons.1 hy' with rfl | hy'
    · exact hxz
    · exact htrans hxz (hz y hy')
  · intro hxy
    obtain ⟨group, hgroup, hx'⟩ := mem_groupRelated_iff.2 hx
    obtain ⟨group', hgroup', hy'⟩ := mem_groupRelated_iff.2 hy
    have hsymm' : Std.Symm fun xs ys : List α => ∀ x ∈ xs, ∀ y ∈ ys, ¬ related x y :=
      ⟨fun _ _ h y hy x hx hyx => h x hx y hy (hsymm hyx)⟩
    have hsame : group = group' := by
      by_contra hdiffer
      exact (pairwise_groupRelated @htrans xs).forall hgroup hgroup' hdiffer x hx' y hy' hxy
    exact ⟨group, hgroup, hx', hsame ▸ hy'⟩

end Groups

/-! ## The partition by first symbol -/

variable {ps : List Alternative} {groups groups' : List (List Nat)} {group later : List Nat}
  {i j : Nat}

/-- The groups of alternatives, with the places of their members only. -/
def leadPlaces (ps : List Alternative) : List (List Nat) := (leadGroups ps).map (·.map Prod.snd)

/-- The alternatives at two places begin with the same symbol, other than the one for the empty
word. -/
def BeginAlike (ps : List Alternative) (i j : Nat) : Prop :=
  ∃ s ≠ .epsilon, ∃ p q, ps[i]? = some (s :: p) ∧ ps[j]? = some (s :: q)

/-- The places of some alternatives, in groups by first symbol. -/
structure IsLeadPartition (ps : List Alternative) (groups : List (List Nat)) : Prop where
  /-- Every place is in the groups once, and nothing else is. -/
  places : groups.flatten.Perm (List.range ps.length)
  ne_nil : ∀ group ∈ groups, group ≠ []
  increasing : ∀ group ∈ groups, group.Pairwise (· < ·)
  /-- The groups come in the order of their first places. -/
  ordered : groups.Pairwise fun group later => ∀ i ∈ group.head?, ∀ j ∈ later.head?, i < j
  together : ∀ i j, i ≠ j → ((∃ group ∈ groups, i ∈ group ∧ j ∈ group) ↔ BeginAlike ps i j)

theorem beginAlike_iff {p q : Alternative} (hp : ps[i]? = some p) (hq : ps[j]? = some q) :
    BeginAlike ps i j ↔ p.sharesLead q := by
  simp only [BeginAlike, Alternative.sharesLead_iff, Alternative.lead_eq_some, hp, hq,
    Option.some.injEq]
  constructor
  · rintro ⟨s, hs, p', q', hp', hq'⟩
    exact ⟨s, ⟨hs, p', hp'⟩, hs, q', hq'⟩
  · rintro ⟨s, ⟨hs, p', hp'⟩, -, q', hq'⟩
    exact ⟨s, hs, p', q', hp', hq'⟩

/-- A group has the alternatives that are at its places. -/
theorem getElem?_of_mem_leadGroups {pairs : List (Alternative × Nat)} {x : Alternative × Nat}
    (hpairs : pairs ∈ leadGroups ps) (hx : x ∈ pairs) : ps[x.2]? = some x.1 :=
  List.mem_zipIdx_iff_getElem?.1 (mem_groupRelated_iff.1 ⟨pairs, hpairs, hx⟩)

theorem map_snd_zipIdx (ps : List Alternative) :
    ps.zipIdx.map Prod.snd = List.range ps.length := by
  rw [List.zipIdx_map_snd, List.range_eq_range']

theorem together_leadPlaces (hne : i ≠ j) :
    (∃ group ∈ leadPlaces ps, i ∈ group ∧ j ∈ group) ↔ BeginAlike ps i j := by
  have hgroup : ∀ {x y : Alternative × Nat}, x ∈ ps.zipIdx → y ∈ ps.zipIdx → x.2 ≠ y.2 →
      ((∃ pairs ∈ leadGroups ps, x ∈ pairs ∧ y ∈ pairs) ↔ x.1.sharesLead y.1) :=
    fun hx hy hne => exists_group_iff Alternative.sharesLead_symm Alternative.sharesLead_trans
      hx hy fun heq => hne (congrArg Prod.snd heq)
  constructor
  · rintro ⟨group, hmem, hi, hj⟩
    obtain ⟨pairs, hpairs, rfl⟩ := List.mem_map.1 hmem
    obtain ⟨x, hx, rfl⟩ := List.mem_map.1 hi
    obtain ⟨y, hy, rfl⟩ := List.mem_map.1 hj
    have hp := getElem?_of_mem_leadGroups hpairs hx
    have hq := getElem?_of_mem_leadGroups hpairs hy
    rw [beginAlike_iff hp hq]
    exact (hgroup (List.mem_zipIdx_iff_getElem?.2 hp) (List.mem_zipIdx_iff_getElem?.2 hq) hne).1
      ⟨pairs, hpairs, hx, hy⟩
  · intro h
    have ⟨s, _, p, q, hp, hq⟩ := h
    have hx : (s :: p, i) ∈ ps.zipIdx := List.mem_zipIdx_iff_getElem?.2 hp
    have hy : (s :: q, j) ∈ ps.zipIdx := List.mem_zipIdx_iff_getElem?.2 hq
    obtain ⟨pairs, hpairs, hx, hy⟩ := (hgroup hx hy hne).2 ((beginAlike_iff hp hq).1 h)
    exact ⟨_, List.mem_map_of_mem hpairs, List.mem_map_of_mem hx, List.mem_map_of_mem hy⟩

theorem isLeadPartition_leadPlaces (ps : List Alternative) :
    IsLeadPartition ps (leadPlaces ps) where
  places := by
    rw [leadPlaces, ← List.map_flatten, ← map_snd_zipIdx]
    exact (perm_flatten_groupRelated _ _).map Prod.snd
  ne_nil group hgroup := by
    obtain ⟨pairs, hpairs, rfl⟩ := List.mem_map.1 hgroup
    obtain ⟨x, rest, rfl, -⟩ := mem_groupRelated hpairs
    exact List.cons_ne_nil _ _
  increasing group hgroup := by
    obtain ⟨pairs, hpairs, rfl⟩ := List.mem_map.1 hgroup
    have hsub := (sublist_of_mem_groupRelated hpairs).map Prod.snd
    rw [map_snd_zipIdx] at hsub
    exact List.pairwise_lt_range.sublist hsub
  ordered := by
    have hsub := (firsts_groupRelated_sublist
      (fun p q => Alternative.sharesLead p.1 q.1) ps.zipIdx).map Prod.snd
    rw [map_snd_zipIdx, List.map_filterMap] at hsub
    have hfirsts := List.pairwise_filterMap.1 (List.pairwise_lt_range.sublist hsub)
    refine List.pairwise_map.2 (hfirsts.imp fun h i hi j hj => h i ?_ j ?_)
    · simpa using hi
    · simpa using hj
  together _ _ := together_leadPlaces

namespace IsLeadPartition

theorem eq_of_mem (h : IsLeadPartition ps groups) (hgroup : group ∈ groups)
    (hlater : later ∈ groups) (hi : i ∈ group) (hi' : i ∈ later) : group = later := by
  have hnodup := h.places.nodup_iff.2 List.nodup_range
  have hsymm : Std.Symm (@List.Disjoint Nat) := ⟨fun _ _ => List.Disjoint.symm⟩
  by_contra hne
  exact (List.nodup_flatten.1 hnodup).2.forall hgroup hlater hne hi hi'

/-- A group has the places that belong to any of its members. -/
theorem mem_iff (h : IsLeadPartition ps groups) (hgroup : group ∈ groups) (hi : i ∈ group) :
    j ∈ group ↔ j = i ∨ BeginAlike ps i j := by
  by_cases hij : j = i
  · simp [hij, hi]
  constructor
  · exact fun hj => .inr ((h.together i j (Ne.symm hij)).1 ⟨group, hgroup, hi, hj⟩)
  · intro hj
    obtain ⟨other, hother, hi', hj'⟩ :=
      (h.together i j (Ne.symm hij)).2 (hj.resolve_left hij)
    rwa [h.eq_of_mem hgroup hother hi hi']

theorem subset (h : IsLeadPartition ps groups) (h' : IsLeadPartition ps groups') :
    groups ⊆ groups' := by
  intro group hgroup
  -- Any place of the group determines the group, here as well as there.
  obtain ⟨i, hi⟩ := List.exists_mem_of_ne_nil group (h.ne_nil group hgroup)
  have hplace := h.places.mem_iff.1 (List.mem_flatten_of_mem hgroup hi)
  obtain ⟨group', hgroup', hi'⟩ := List.mem_flatten.1 (h'.places.mem_iff.2 hplace)
  have hmem : ∀ j, j ∈ group ↔ j ∈ group' :=
    fun _ => (h.mem_iff hgroup hi).trans (h'.mem_iff hgroup' hi').symm
  rwa [(h.increasing group hgroup).eq_of_mem_iff (h'.increasing group' hgroup') hmem]

theorem nodup (h : IsLeadPartition ps groups) : groups.Nodup := by
  refine h.ordered.imp_of_mem ?_
  rintro group _ hgroup - hlt rfl
  obtain ⟨i, rest, rfl⟩ := List.exists_cons_of_ne_nil (h.ne_nil group hgroup)
  exact lt_irrefl i (hlt i rfl i rfl)

/-- The places can be put into groups in one way only. -/
theorem unique (h : IsLeadPartition ps groups) (h' : IsLeadPartition ps groups') :
    groups = groups' := by
  have hperm : groups.Perm groups' := (List.perm_ext_iff_of_nodup h.nodup h'.nodup).2
    fun _ => ⟨fun hmem => h.subset h' hmem, fun hmem => h'.subset h hmem⟩
  refine List.Perm.eq_of_pairwise (fun group later hgroup hlater hlt hgt => ?_)
    h.ordered h'.ordered hperm
  obtain ⟨i, _, rfl⟩ := List.exists_cons_of_ne_nil (h.ne_nil group hgroup)
  obtain ⟨j, _, rfl⟩ := List.exists_cons_of_ne_nil (h'.ne_nil later hlater)
  exact absurd (hlt i rfl j rfl) (hgt j rfl i rfl).asymm

end IsLeadPartition

/-- The groups are the partition of the places by first symbol, and there is no other. -/
theorem leadPlaces_eq_iff : leadPlaces ps = groups ↔ IsLeadPartition ps groups :=
  ⟨fun h => h ▸ isLeadPartition_leadPlaces ps, (isLeadPartition_leadPlaces ps).unique⟩

/-! ## What some alternatives share -/

variable {p q : Alternative} {members : List Alternative}

/-- All of some alternatives have `n` symbols at least, and the same first `n`. -/
def Agree (ps : List Alternative) (n : Nat) : Prop :=
  (∀ p ∈ ps, n ≤ p.length) ∧ ∀ p ∈ ps, ∀ q ∈ ps, p.take n = q.take n

theorem take_length_sharedPrefix (h : p ∈ ps) :
    p.take (sharedPrefix ps).length = sharedPrefix ps :=
  (List.prefix_iff_eq_take.1 (sharedPrefix_begins h)).symm

/-- What some alternatives share is as long as they agree. -/
theorem isGreatest_length_sharedPrefix (hne : ps ≠ []) :
    IsGreatest {n | Agree ps n} (sharedPrefix ps).length := by
  constructor
  · refine ⟨fun p hp => (sharedPrefix_begins hp).length_le, fun p hp q hq => ?_⟩
    rw [take_length_sharedPrefix hp, take_length_sharedPrefix hq]
  · rintro n ⟨hlength, hsame⟩
    obtain ⟨p, hp⟩ := List.exists_mem_of_ne_nil ps hne
    have hbegins : p.take n <+: sharedPrefix ps := by
      refine (prefix_sharedPrefix_iff hne).2 fun q hq => ?_
      rw [hsame p hp q hq]
      exact List.take_prefix n q
    calc n = (p.take n).length := (List.length_take_of_le (hlength p hp)).symm
      _ ≤ (sharedPrefix ps).length := hbegins.length_le

/-- The number of places from the front at which some alternatives have the symbol of the first of
them, up to the end of the shortest. -/
def agreement (ps : List Alternative) : Nat :=
  let shortest := (ps.map List.length).min?.getD 0
  ((List.range shortest).takeWhile fun i => ps.all (·[i]? == (ps.headD [])[i]?)).length

theorem le_length_takeWhile_range {n m : Nat} {test : Nat → Bool} :
    n ≤ ((List.range m).takeWhile test).length ↔ n ≤ m ∧ ∀ i < n, test i := by
  have hbegins := List.takeWhile_prefix (l := List.range m) test
  constructor
  · intro h
    refine ⟨h.trans (by simpa using hbegins.length_le), fun i hi => ?_⟩
    have hget := hbegins.getElem (hi.trans_le h)
    rw [List.getElem_range] at hget
    exact hget ▸ List.all_eq_true.1 List.all_takeWhile _ (List.getElem_mem (hi.trans_le h))
  · rintro ⟨hn, htest⟩
    obtain ⟨k, rfl⟩ := Nat.exists_eq_add_of_le hn
    rw [List.range_add, List.takeWhile_append_of_pos fun i hi => htest i (List.mem_range.1 hi)]
    simp

theorem agree_iff (hne : ps ≠ []) {n : Nat} : Agree ps n ↔ n ≤ agreement ps := by
  obtain ⟨first, hfirst⟩ : ∃ p, p ∈ ps ∧ ps.headD [] = p := by
    obtain ⟨p, rest, rfl⟩ := List.exists_cons_of_ne_nil hne
    exact ⟨p, List.mem_cons_self, rfl⟩
  obtain ⟨shortest, hshortest⟩ := Option.isSome_iff_exists.1
    (List.isSome_min?_of_ne_nil (by simpa using hne : ps.map List.length ≠ []))
  simp only [agreement, hshortest, Option.getD_some, hfirst.2, le_length_takeWhile_range,
    List.le_min?_iff hshortest, List.forall_mem_map, List.all_eq_true, beq_iff_eq, Agree]
  refine and_congr_right fun hlength => ⟨fun h i hi p hp => ?_, fun h p hp q hq => ?_⟩
  · have := congrArg (·[i]?) (h p hp first hfirst.1)
    simpa [List.getElem?_take_of_lt hi] using this
  · refine List.ext_getElem? fun i => ?_
    simp only [List.getElem?_take]
    split
    · rw [h i ‹_› p hp, h i ‹_› q hq]
    · rfl

/-- What some alternatives share is found by counting the places at which they agree. -/
theorem length_sharedPrefix (hne : ps ≠ []) : (sharedPrefix ps).length = agreement ps :=
  (isGreatest_length_sharedPrefix hne).unique
    ⟨(agree_iff hne).2 le_rfl, fun _ h => (agree_iff hne).1 h⟩

/-- The members of a group of two or more share their first symbol. -/
theorem length_sharedPrefix_pos (h : members ∈ (leadGroups ps).map (·.map Prod.fst))
    (hmany : 2 ≤ members.length) : 1 ≤ (sharedPrefix members).length := by
  obtain ⟨s, hlead⟩ := exists_lead_of_mem_groups h (by rintro p rfl; simp at hmany)
  obtain ⟨rest, hshared⟩ := sharedPrefix_of_lead (by rintro rfl; simp at hmany) hlead
  rw [hshared, List.length_cons]
  omega

/-! ## What factoring takes off -/

/-- If `shared` is taken off the front of `p`, then `q` is left. An empty rest is
written `epsilon`. -/
def Alternative.Leaves (shared p q : Alternative) : Prop :=
  ∃ rest, p = shared ++ rest ∧ q = if rest = [] then [.epsilon] else rest

/-- The rule `r` has what is left of the members of a group, in order, if what they share is taken
off, and this is one symbol at least. -/
structure Strips (members : List Alternative) (r : Rule) : Prop where
  shared_pos : 1 ≤ (sharedPrefix members).length
  leaves : List.Forall₂ (Alternative.Leaves (sharedPrefix members)) members r.alternatives

namespace Factoring

theorem strips_remainderRule (name : String) (f : Factoring)
    (hpos : 1 ≤ (sharedPrefix members).length) : Strips members (f.remainderRule name members) where
  shared_pos := hpos
  leaves := by
    refine List.forall₂_map_right_iff.2 (List.forall₂_same.2 fun p hp => ?_)
    obtain ⟨rest, hrest⟩ := sharedPrefix_begins hp
    refine ⟨rest, hrest.symm, ?_⟩
    rw [← Alternative.remainder_append, hrest]

/-- Each group of two or more adds a rule with what is left of its members. -/
theorem forall₂_strips_foldl_addGroup (name : String) (f : Factoring)
    {groups : List (List Alternative)} (hne : ∀ members ∈ groups, members ≠ [])
    (hpos : ∀ members ∈ groups, 2 ≤ members.length → 1 ≤ (sharedPrefix members).length) :
    ∃ added, (groups.foldl (addGroup name) f).added = f.added ++ added ∧
      List.Forall₂ Strips (groups.filter (2 ≤ ·.length)) added := by
  induction groups generalizing f with
  | nil => exact ⟨[], by simp, .nil⟩
  | cons members groups ih =>
    obtain ⟨hfirst, hne⟩ := List.forall_mem_cons.1 hne
    obtain ⟨hfirstPos, hpos⟩ := List.forall_mem_cons.1 hpos
    obtain ⟨added, hadded, hstrips⟩ := ih (f.addGroup name members) hne hpos
    rw [List.foldl_cons, hadded]
    by_cases hmany : 2 ≤ members.length
    · refine ⟨f.remainderRule name members :: added, ?_, ?_⟩
      · rw [addGroup_of_ne name f (by rintro p rfl; simp at hmany)]
        simp
      · rw [List.filter_cons_of_pos (by simpa using hmany)]
        exact .cons (strips_remainderRule name f (hfirstPos hmany)) hstrips
    · have hlength := List.length_pos_of_ne_nil hfirst
      obtain ⟨p, rfl⟩ := List.length_eq_one_iff.1 (show members.length = 1 by omega)
      exact ⟨added, rfl, by rwa [List.filter_cons_of_neg (by simp)]⟩

end Factoring

/-- Factoring a rule adds, for each group of two or more alternatives, a rule with what is left of
them. -/
theorem Grammar.forall₂_strips_factorRule (g : Grammar) (r : Rule) :
    List.Forall₂ Strips
      (((leadGroups r.alternatives).map (·.map Prod.fst)).filter (2 ≤ ·.length))
      (g.factorRule r).2 := by
  obtain ⟨added, hadded, hstrips⟩ := Factoring.forall₂_strips_foldl_addGroup r.name
    ⟨g, r.name, [], []⟩ (fun _ h => (mem_groups_of_rule h).1) fun _ => length_sharedPrefix_pos
  rwa [factorRule, factorGroups, hadded, List.nil_append]

/-! ## Groups and shared beginnings -/

/-- One pass over some alternatives finds the partition of their places by first symbol, the only
one there is, with the alternatives at these places. What some alternatives share is their longest
common beginning. For a group of two or more it is not empty, so whenever a rule is factored, the
rules that this adds have lost a symbol at least of each member of their group. -/
theorem leadGroups_partition_sharedPrefix_longest :
    (∀ ps : List Alternative, leadGroups ps
      = ps.zipIdx.foldl (joinGroup fun p q => Alternative.sharesLead p.1 q.1) []) ∧
    (∀ (ps : List Alternative) (groups : List (List Nat)),
      leadPlaces ps = groups ↔ IsLeadPartition ps groups) ∧
    (∀ ps : List Alternative, ∀ pairs ∈ leadGroups ps, ∀ x ∈ pairs, ps[x.2]? = some x.1) ∧
    (∀ ps : List Alternative, ps ≠ [] →
      IsGreatest {n | Agree ps n} (sharedPrefix ps).length ∧
      ∀ p ∈ ps, p.take (sharedPrefix ps).length = sharedPrefix ps) ∧
    (∀ ps : List Alternative, ∀ members ∈ (leadGroups ps).map (·.map Prod.fst),
      2 ≤ members.length → 1 ≤ (sharedPrefix members).length) ∧
    ∀ (g : Grammar) (r : Rule), List.Forall₂ Strips
      (((leadGroups r.alternatives).map (·.map Prod.fst)).filter (2 ≤ ·.length))
      (g.factorRule r).2 := by
  refine ⟨fun _ => groupRelated_eq_foldl _ _, fun _ _ => leadPlaces_eq_iff,
    fun _ _ hpairs _ hx => getElem?_of_mem_leadGroups hpairs hx, fun _ hne => ⟨?_, ?_⟩, ?_, ?_⟩
  · exact isGreatest_length_sharedPrefix hne
  · exact fun _ hp => take_length_sharedPrefix hp
  · exact fun _ _ hmember hmany => length_sharedPrefix_pos hmember hmany
  · exact Grammar.forall₂_strips_factorRule

/-- A rule with two groups, in both of which one member begins the others. Between them stand
alternatives without a symbol and with `epsilon` in front, each of them twice and yet alone. -/
theorem leadGroups_partition_sharedPrefix_longest_of_rule :
    let a : Symbol := .terminal "a"
    let x : Symbol := .nonterminal "x"
    let members : List Alternative := [[a, a], [a, a, x], [a, a, a]]
    let others : List Alternative := [[x, a], [x]]
    let ps : List Alternative :=
      [[a, a], [.epsilon, a], [x, a], [a, a, x], [], [.epsilon, a], [a, a, a], [x], []]
    let g : Grammar := { rules := [⟨"S", ps⟩], start := "S" }
    IsLeadPartition ps [[0, 3, 6], [1], [2, 7], [4], [5], [8]] ∧
      members ≠ [] ∧ IsGreatest {n | Agree members n} 2 ∧
      members ∈ (leadGroups ps).map (·.map Prod.fst) ∧ 2 ≤ members.length ∧
      1 ≤ (sharedPrefix members).length ∧
      (g.factorRule ⟨"S", ps⟩).2 = [⟨"S'", [[.epsilon], [x], [a]]⟩, ⟨"S'1", [[a], [.epsilon]]⟩] ∧
      List.Forall₂ Strips [members, others] (g.factorRule ⟨"S", ps⟩).2 := by
  intro a x members others ps g
  have hplaces : leadPlaces ps = [[0, 3, 6], [1], [2, 7], [4], [5], [8]] := by
    simp only [ps, a, x]
    cbv
  have hmember : members ∈ (leadGroups ps).map (·.map Prod.fst) := by
    simp only [ps, a, x, members]
    decide +kernel
  have hgroups : ((leadGroups ps).map (·.map Prod.fst)).filter (2 ≤ ·.length)
      = [members, others] := by
    simp only [ps, a, x, members, others]
    cbv
  have hrules : (g.factorRule ⟨"S", ps⟩).2
      = [⟨"S'", [[.epsilon], [x], [a]]⟩, ⟨"S'1", [[a], [.epsilon]]⟩] := by
    simp only [g, ps, a, x]
    cbv
  obtain ⟨-, hpartition, -, hlongest, hpos, hstrips⟩ := leadGroups_partition_sharedPrefix_longest
  have hne : members ≠ [] := List.cons_ne_nil _ _
  have hmany : 2 ≤ members.length := by decide
  refine ⟨(hpartition ps _).1 hplaces, hne, (hlongest members hne).1, hmember, hmany,
    hpos ps members hmember hmany, hrules, ?_⟩
  rw [← hgroups]
  exact hstrips g ⟨"S", ps⟩

end PredictiveParsing
