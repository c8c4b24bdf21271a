import PredictiveParsing.Proofs.Follow
import PredictiveParsing.Proofs.Reachable

/-!
# FOLLOW sets are exact

The `FOLLOW` set of a nonterminal holds the terminals that come directly after it in the forms that
the nonterminals of the grammar derive, whether or not these can be reached, and the end marker if
it comes last in a form that the start symbol derives. The sets are sound, since what comes after an
alternative also comes after a nonterminal at its end. They are complete, since they hold what comes
after each nonterminal of a form, and a replacement anywhere in the form leaves it so. Where every
nonterminal can be reached, one derivation that starts with the start symbol before the end marker
shows each member.

## Main definitions

* `Grammar.Precedes`: what comes directly after a nonterminal in a form that a form derives.
* `FollowSets.Exact`: sets that say exactly what can come after the nonterminals of a grammar.

## Main statements

* `Grammar.mem_followFacts_iff`: the sets of a grammar hold what can come after its nonterminals.
* `Grammar.followSets_exact`: the rounds end, with these sets.
-/

namespace PredictiveParsing

namespace Grammar

variable {g : Grammar} {name outer : String} {x : Symbol} {next : Option Symbol}
  {u v w before rest : List Symbol} {p : Alternative} {after : Symbol → Prop}

/-- In a form that `u` derives, `next` comes directly after the nonterminal `name` when all
`epsilon` symbols are erased: a symbol, or nothing if `name` comes last. -/
def Precedes (g : Grammar) (u : List Symbol) (name : String) (next : Option Symbol) : Prop :=
  ∃ before rest, g.Derives u (before ++ .nonterminal name :: rest) ∧
    (eraseEpsilon rest).head? = next

namespace Precedes

/-- What comes after a nonterminal comes after the last nonterminal of each of its alternatives. -/
theorem inherit (h : g.Precedes u outer next)
    (hp : before ++ .nonterminal name :: rest ∈ g.alternatives outer)
    (hrest : g.Begins rest .epsilon) : g.Precedes u name next := by
  obtain ⟨left, right, hu, hnext⟩ := h
  obtain ⟨w, hw, hnil⟩ := begins_epsilon.1 hrest
  have hinner : g.Derives (before ++ .nonterminal name :: rest) (before ++ .nonterminal name :: w) :=
    (hw.append_left [.nonterminal name]).append_left before
  have hstep := (Rewrites.replace left right hp).derives
  refine ⟨left ++ before, w ++ right, hu.trans (hstep.trans ?_), by simp [hnil, hnext]⟩
  simpa using (hinner.append_right right).append_left left

/-- A symbol that comes after a nonterminal comes after it in every context. -/
theorem context (h : g.Precedes u name (some x)) (hu : g.Derives v (before ++ (u ++ rest))) :
    g.Precedes v name (some x) := by
  obtain ⟨left, right, hleft, hx⟩ := h
  refine ⟨before ++ left, right ++ rest, hu.trans ?_, by simp [List.head?_append, hx]⟩
  simpa using (hleft.append_right rest).append_left before

/-- What comes behind a form comes after a nonterminal at its end. -/
theorem append (h : g.Precedes u name none) (v : List Symbol) :
    g.Precedes (u ++ v) name (eraseEpsilon v).head? := by
  obtain ⟨left, right, hu, hnone⟩ := h
  have hnil : eraseEpsilon right = [] := List.head?_eq_none_iff.1 hnone
  exact ⟨left, right ++ v, by simpa using hu.append_right v, by simp [hnil]⟩

end Precedes

/-! ## Soundness -/

/-- What may come after a nonterminal: a terminal in what some nonterminal derives, or the end
marker where the nonterminal comes last in what the start symbol derives. -/
def MayFollow (g : Grammar) (name : String) : Symbol → Prop
  | .terminal a => ∃ c ∈ g.names, g.Precedes [.nonterminal c] name (some (.terminal a))
  | .endMarker => g.Precedes [.nonterminal g.start] name none
  | _ => False

theorem MayFollow.inherit (h : g.MayFollow outer x)
    (hp : before ++ .nonterminal name :: rest ∈ g.alternatives outer)
    (hrest : g.Begins rest .epsilon) : g.MayFollow name x := by
  cases x with
  | terminal a =>
    obtain ⟨c, hc, h⟩ := h
    exact ⟨c, hc, h.inherit hp hrest⟩
  | endMarker => exact Precedes.inherit h hp hrest
  | _ => exact h

/-- What the rest of an alternative begins with may come after the nonterminal before it. -/
theorem mayFollow_of_begins (hg : g.WellFormed)
    (hp : before ++ .nonterminal name :: rest ∈ g.alternatives outer) (h : g.Begins rest x)
    (hx : x ≠ .epsilon) : g.MayFollow name x := by
  cases x with
  | terminal a =>
    obtain ⟨v, hv, ha⟩ := h
    refine ⟨outer, mem_names_of_mem_alternatives hp, before, v, ?_, ha⟩
    exact (derives_nonterminal hp).trans
      ((hv.append_left [.nonterminal name]).append_left before)
  | nonterminal other => exact h
  | epsilon => exact absurd rfl hx
  | endMarker =>
    exact (hg.admits_of_mem hp (s := .endMarker)
      (by simp [mem_of_begins_endMarker h])).elim

theorem mayFollow_of_mem_followFacts (hg : g.WellFormed) :
    ∀ fact ∈ g.followFacts, g.MayFollow fact.1 fact.2 := by
  refine followFacts_induction hg ⟨[], [], .refl _, rfl⟩ fun outer p hp site hsite x hx => ?_
  obtain ⟨before, rfl⟩ := mem_sites.1 hsite
  rcases hx with ⟨hmem, hne⟩ | ⟨hε, hmem⟩
  · exact mayFollow_of_begins hg hp ((mem_ofSequence hg).1 hmem) hne
  · exact hmem.inherit hp ((mem_ofSequence hg).1 hε)

/-! ## Completeness -/

/-- A replacement anywhere in a form leaves the property of its nonterminals as it is. -/
theorem Follows.rewrites (hg : g.WellFormed) (h : g.Follows after u) (hstep : g.Rewrites u v) :
    g.Follows after v := by
  obtain ⟨before, rest, hp⟩ := hstep
  intro site hsite x hx
  rcases mem_sites_append.1 hsite with ⟨tail, htail, hsplit⟩ | hsite
  · rw [hsplit, expects_append] at hx
    refine h (site.1, tail ++ .nonterminal _ :: rest)
      (mem_sites_append.2 (.inl ⟨tail, htail, rfl⟩)) x ?_
    exact expects_append.2 (hx.mono fun y hy => hy.nonterminal hp)
  · exact Follows.expand hg (fun site hsite => h site (mem_sites_append.2 (.inr hsite))) hp
      site hsite x hx

theorem Follows.derives (hg : g.WellFormed) (h : g.Follows after u) (hd : g.Derives u v) :
    g.Follows after v := by
  induction hd with
  | refl => exact h
  | tail _ hstep ih => exact ih.rewrites hg hstep

/-- What comes after a nonterminal in a derived form is in its set. -/
theorem Precedes.mem_followFacts (hg : g.WellFormed) (h : g.Precedes u name (some x))
    (hu : g.Follows after u) (hx : x.isTerminal) : (name, x) ∈ g.followFacts := by
  obtain ⟨before, rest, hd, hhead⟩ := h
  have hne : x ≠ .epsilon := by
    rintro rfl
    simp [Symbol.isTerminal] at hx
  exact hu.derives hg hd (name, rest) (mem_sites.2 ⟨before, rfl⟩) x
    (.inl ⟨mem_firstOf_of_head? hx hhead, hne⟩)

/-- What comes behind a form is in the set of a nonterminal that comes last in it. -/
theorem Precedes.mem_followFacts_of_after (hg : g.WellFormed) (h : g.Precedes u name none)
    (hu : g.Follows after u) (hx : after x) : (name, x) ∈ g.followFacts := by
  obtain ⟨before, rest, hd, hnone⟩ := h
  exact hu.derives hg hd (name, rest) (mem_sites.2 ⟨before, rfl⟩) x
    (.inr ⟨epsilon_mem_firstOf (List.head?_eq_none_iff.1 hnone), hx⟩)

theorem follows_nonterminal (g : Grammar) (name : String) :
    g.Follows (fun x => (name, x) ∈ g.followFacts) [.nonterminal name] := by
  intro site hsite x hx
  obtain rfl := List.mem_singleton.1 hsite
  exact expects_nil.1 hx

/-- The sets of a grammar hold what can come after its nonterminals. -/
theorem mem_followFacts_iff (hg : g.WellFormed) :
    (name, x) ∈ g.followFacts ↔ g.MayFollow name x := by
  refine ⟨mayFollow_of_mem_followFacts hg (name, x), fun h => ?_⟩
  cases x with
  | terminal a =>
    obtain ⟨c, -, h⟩ := h
    exact h.mem_followFacts hg (follows_nonterminal g c) rfl
  | endMarker => exact Precedes.mem_followFacts_of_after hg h (follows_start hg) rfl
  | nonterminal other => exact h.elim
  | epsilon => exact h.elim

/-! ## Reachable nonterminals -/

theorem follows_start_endMarker (hg : g.WellFormed) :
    g.Follows (fun _ => False) [.nonterminal g.start, .endMarker] := by
  intro site hsite x hx
  obtain rfl := List.mem_singleton.1 hsite
  have hend : x = .endMarker ∧ x ≠ .epsilon := by
    simpa [Expects, FirstSets.ofSequence, firstOf] using hx
  exact hend.1 ▸ endMarker_mem_followFacts hg

/-- Where each nonterminal is in a form that the start symbol derives, the members of a set come
after its nonterminal in what the start symbol before the end marker derives. -/
theorem mayFollow_iff_of_reachable (hg : g.WellFormed) (h : ∀ c ∈ g.names, c ∈ g.reachable) :
    g.MayFollow name x ↔
      x.isTerminal ∧ g.Precedes [.nonterminal g.start, .endMarker] name (some x) := by
  constructor
  · intro hx
    cases x with
    | terminal a =>
      obtain ⟨c, hc, ha⟩ := hx
      obtain ⟨v, hv, hmem⟩ := (mem_reachable hg).1 (h c hc)
      obtain ⟨before, rest, rfl⟩ := List.append_of_mem hmem
      have hstart : g.Derives [.nonterminal g.start, .endMarker]
          (before ++ ([.nonterminal c] ++ (rest ++ [.endMarker]))) := by
        simpa using hv.append_right [.endMarker]
      exact ⟨rfl, ha.context hstart⟩
    | endMarker => exact ⟨rfl, Precedes.append hx [.endMarker]⟩
    | nonterminal other => exact hx.elim
    | epsilon => exact hx.elim
  · rintro ⟨hx, hprecedes⟩
    exact (mem_followFacts_iff hg).1
      (hprecedes.mem_followFacts hg (follows_start_endMarker hg) hx)

end Grammar

/-! ## Exact sets -/

/-- Sets that say exactly what can come after the nonterminals of a grammar. -/
structure FollowSets.Exact (follow : FollowSets) (g : Grammar) : Prop where
  /-- The nonterminals of the grammar, and no other names, have sets. -/
  get? : ∀ name, (∃ set, follow.get? name = some set) ↔ name ∈ g.names
  /-- A terminal is in the set of a nonterminal if it comes directly after it in a form that some
  nonterminal of the grammar derives. -/
  terminal : ∀ name set, follow.get? name = some set → ∀ a, .terminal a ∈ set ↔
    ∃ c ∈ g.names, g.Precedes [.nonterminal c] name (some (.terminal a))
  /-- The end marker is in the set of a nonterminal if a form that the start symbol derives ends
  with it. -/
  endMarker : ∀ name set, follow.get? name = some set →
    (.endMarker ∈ set ↔ g.Precedes [.nonterminal g.start] name none)
  /-- The empty word is in no set. -/
  epsilon : ∀ name set, follow.get? name = some set → .epsilon ∉ set
  /-- Nonterminals are in no set. -/
  nonterminal : ∀ name set, follow.get? name = some set → ∀ other, .nonterminal other ∉ set

namespace Grammar

variable {g : Grammar} {name : String} {set : List Symbol} {x : Symbol}

theorem get?_followSets_eq_some :
    g.firstSets.followSets.get? name = some set ↔
      name ∈ g.names ∧ set = membersOf g.followFacts name := by
  simp only [FollowSets.get?, Option.ite_none_right_eq_some, Option.some.injEq]
  exact and_congr declares_iff eq_comm

theorem mem_followSets (hg : g.WellFormed) (h : g.firstSets.followSets.get? name = some set) :
    x ∈ set ↔ g.MayFollow name x := by
  obtain ⟨-, rfl⟩ := get?_followSets_eq_some.1 h
  exact mem_membersOf.trans (mem_followFacts_iff hg)

theorem exact_followSets (hg : g.WellFormed) : g.firstSets.followSets.Exact g where
  get? name := by simp [get?_followSets_eq_some]
  terminal _ _ h _ := mem_followSets hg h
  endMarker _ _ h := mem_followSets hg h
  epsilon _ _ h := (mem_followSets hg h).not.2 id
  nonterminal _ _ h _ := (mem_followSets hg h).not.2 id

/-- The rounds that compute the `FOLLOW` sets of an attainable grammar end, with exact sets. Where
no nonterminal is reported as unreachable, a set holds just what comes directly after its
nonterminal in the forms that the start symbol before the end marker derives. -/
theorem followSets_exact (hg : g.Attainable) :
    (∃ n, g.followFacts = (round g.firstSets.followRules)^[n] g.firstSets.endFacts ∧
      (∀ m < n, round g.firstSets.followRules
          ((round g.firstSets.followRules)^[m] g.firstSets.endFacts)
        ≠ (round g.firstSets.followRules)^[m] g.firstSets.endFacts) ∧
      round g.firstSets.followRules g.followFacts = g.followFacts) ∧
    g.firstSets.followSets.Exact g ∧
    ((∀ name, .unreachable name ∉ g.warnings) →
      ∀ name set, g.firstSets.followSets.get? name = some set → ∀ x, x ∈ set ↔
        x.isTerminal ∧ g.Precedes [.nonterminal g.start, .endMarker] name (some x)) := by
  have hrules := staysIn_followRules hg.wellFormed
  have hend := endFacts_subset hg.wellFormed
  obtain ⟨n, hn, hfirst⟩ := saturate_eq_iterate_round hrules hend
  refine ⟨⟨n, hn, hfirst, round_saturate hrules hend⟩, exact_followSets hg.wellFormed, ?_⟩
  intro hwarnings name set hset x
  have hreachable : ∀ c ∈ g.names, c ∈ g.reachable := fun c hc => by
    simpa [warnings, hc] using hwarnings c
  exact (mem_followSets hg.wellFormed hset).trans
    (mayFollow_iff_of_reachable hg.wellFormed hreachable)

/-- The sets of a grammar in which a nullable symbol stands between two others. -/
theorem followSets_exact_of_text :
    let g : Grammar :=
      { rules := [⟨"S", [[.nonterminal "A", .nonterminal "B", .terminal "c"]]⟩,
          ⟨"A", [[.terminal "a"]]⟩, ⟨"B", [[.terminal "b"], [.epsilon]]⟩]
        start := "S" }
    ofText "S -> A B c; A -> a; B -> b | ε" = .ok g ∧
      g.firstSets.followSets.get? "A" = some [.terminal "b", .terminal "c"] ∧
      (∀ name, .unreachable name ∉ g.warnings) ∧
      g.Precedes [.nonterminal "S", .endMarker] "A" (some (.terminal "c")) := by
  intro g
  have hg : ofText "S -> A B c; A -> a; B -> b | ε" = .ok g := rfl
  have hset : g.firstSets.followSets.get? "A" = some [.terminal "b", .terminal "c"] := by
    simp only [g]
    cbv
  have hwarnings : ∀ name, .unreachable name ∉ g.warnings := by
    have hnil : g.warnings = [] := by
      simp only [g]
      cbv
    simp [hnil]
  obtain ⟨-, -, hreach⟩ := followSets_exact (.ofText hg)
  exact ⟨hg, hset, hwarnings, ((hreach hwarnings "A" _ hset _).1 (by simp)).2⟩

end Grammar

end PredictiveParsing
