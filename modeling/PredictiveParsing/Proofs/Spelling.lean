import PredictiveParsing.Proofs.Attainable
import PredictiveParsing.Proofs.Lexemes

/-!
# The spelling of attainable grammars

What the reader takes for a terminal is a lexeme, and no nonterminal in an alternative is spelled in
a way that it reads as something else. The changes of a grammar keep this, as they only add primes
and numbers to names. Where a name is declared it need only be a word, so it may have characters
that make it more than one lexeme on a right side.

## Main definitions

* `Symbol.Spelled`, `Alternative.Spelled`, `Rule.Spelled`: how symbols, alternatives and rules are
  spelled.

## Main statements

* `Grammar.spelled_ofText`: the grammar of a text is spelled like this.
* `Grammar.Attainable.spelled`: all attainable grammars are spelled like this.
-/

namespace PredictiveParsing

open Text

/-! ## Symbols and alternatives -/

/-- The two spellings of the empty word. -/
def SpellsEpsilon (name : String) : Prop := name = "ε" ∨ name = "epsilon"

/-- How a symbol is spelled that stands for itself. -/
def Symbol.Spelled : Symbol → Prop
  | terminal a => IsLexeme a.toList ∧ ¬ SpellsEpsilon a
  | nonterminal name => name ≠ "'" ∧ ¬ SpellsEpsilon name
  | _ => False

/-- How the symbols of an alternative are spelled. The empty word stands alone. -/
def Alternative.Spelled (p : Alternative) : Prop := p = [.epsilon] ∨ ∀ s ∈ p, s.Spelled

/-- How a rule is spelled. -/
structure Rule.Spelled (r : Rule) : Prop where
  name : IsWord r.name.toList
  alternatives : ∀ p ∈ r.alternatives, p.Spelled

/-- How a grammar is spelled. -/
structure Grammar.Spelled (g : Grammar) : Prop where
  rules : ∀ r ∈ g.rules, r.Spelled
  exists_alternative : ∃ r ∈ g.rules, r.alternatives ≠ []

variable {p : Alternative} {s : Symbol} {r : Rule} {name helper : String}

theorem Alternative.Spelled.of_mem (h : p.Spelled) (hs : s ∈ p) (hne : s ≠ .epsilon) :
    s.Spelled := by
  rcases h with rfl | h
  · exact absurd (List.mem_singleton.1 hs) hne
  · exact h s hs

theorem Alternative.Spelled.of_lead (h : p.Spelled) (hlead : p.lead = some s) :
    ∀ x ∈ p, x.Spelled := by
  rcases h with rfl | h
  · simp [lead, Option.filter] at hlead
  · exact h

theorem Alternative.Spelled.remainder (h : ∀ s ∈ p, s.Spelled) (n : Nat) :
    (p.remainder n).Spelled := by
  unfold Alternative.remainder
  split
  · exact .inl rfl
  · exact .inr fun s hs => h s (List.mem_of_mem_drop hs)

theorem Alternative.Spelled.concat {u : List Symbol} (hu : ∀ s ∈ u, s.Spelled)
    (hname : (Symbol.nonterminal name).Spelled) :
    Alternative.Spelled (u ++ [.nonterminal name]) := by
  refine .inr fun s hs => ?_
  rcases List.mem_append.1 hs with hs | hs
  · exact hu s hs
  · exact List.mem_singleton.1 hs ▸ hname

/-! ## Grammars of texts -/

theorem Symbol.ofLexeme_eq_epsilon_iff {declared : List String} {lexeme : String} :
    Symbol.ofLexeme declared lexeme = .epsilon ↔ SpellsEpsilon lexeme := by
  unfold Symbol.ofLexeme SpellsEpsilon
  grind

theorem Symbol.spelled_ofLexeme {declared : List String} {lexeme : String}
    (h : IsLexeme lexeme.toList) (hne : Symbol.ofLexeme declared lexeme ≠ .epsilon) :
    (Symbol.ofLexeme declared lexeme).Spelled := by
  unfold Symbol.ofLexeme at hne ⊢
  split at hne
  · exact absurd rfl hne
  next hepsilon =>
    have hepsilon : ¬ SpellsEpsilon lexeme := by simpa [SpellsEpsilon] using hepsilon
    rw [if_neg (by simpa [SpellsEpsilon] using hepsilon)]
    split
    · exact ⟨by rintro rfl; exact h.ne_prime rfl, hepsilon⟩
    · exact ⟨h, hepsilon⟩

theorem Alternative.spelled_ofLexemes {declared lexemes : List String}
    (h : ∀ lexeme ∈ lexemes, IsLexeme lexeme.toList) :
    (Alternative.ofLexemes declared lexemes).Spelled := by
  have hsymbol : ∀ s ∈ lexemes.map (Symbol.ofLexeme declared), s ≠ .epsilon → s.Spelled := by
    intro s hs hne
    obtain ⟨lexeme, hlexeme, rfl⟩ := List.mem_map.1 hs
    exact Symbol.spelled_ofLexeme (h lexeme hlexeme) hne
  simp only [Alternative.ofLexemes]
  generalize lexemes.map (Symbol.ofLexeme declared) = symbols at hsymbol
  split
  · refine .inr fun s hs => ?_
    obtain ⟨hs, hne⟩ := List.mem_filter.1 hs
    exact hsymbol s hs (by simpa using hne)
  next hshort =>
    by_cases hepsilon : .epsilon ∈ symbols
    · obtain ⟨s, rfl⟩ := List.length_eq_one_iff.1
        (Nat.le_antisymm (Nat.not_lt.1 hshort) (List.length_pos_of_mem hepsilon))
      exact .inl (by rw [List.mem_singleton.1 hepsilon])
    · exact .inr fun s hs => hsymbol s hs (ne_of_mem_of_not_mem hs hepsilon)

theorem Grammar.exists_alternative_ofText {g : Grammar} {text : String} (h : ofText text = .ok g) :
    ∃ r ∈ g.rules, r.alternatives ≠ [] := by
  simp only [ofText] at h
  split at h
  · cases h
  · split at h
    · cases h
    next first rest _ =>
      split at h
      · cases h
      next hsome =>
        cases h
        by_contra! hnone
        exact hsome (List.all_eq_true.2 fun r hr => by simp [hnone r hr])

/-- The grammar of a text is spelled like this. -/
theorem Grammar.spelled_ofText {g : Grammar} {text : String} (h : ofText text = .ok g) :
    g.Spelled := by
  obtain ⟨-, hrules, -⟩ := ofText_eq_ok h
  refine ⟨fun r hr => ?_, exists_alternative_ofText h⟩
  obtain ⟨name, hname, rfl⟩ := List.mem_map.1 (hrules ▸ hr)
  obtain ⟨d, hd, rfl⟩ := List.mem_map.1 (List.mem_eraseDups.1 hname)
  refine ⟨Declaration.isWord_left_of_mem_ofText hd, fun p hp => ?_⟩
  obtain ⟨e, he, hp⟩ := List.mem_flatMap.1 hp
  obtain ⟨lexemes, hlexemes, rfl⟩ := List.mem_map.1 hp
  exact Alternative.spelled_ofLexemes fun lexeme hlexeme =>
    Declaration.isLexeme_of_mem_ofText (List.mem_of_mem_filter he) (List.mem_of_mem_filter hlexemes)
      hlexeme

/-! ## Fresh names -/

theorem isBlank_of_isDigit {c : Char} (h : c.isDigit) : isBlank c = false := by
  have hbounds : 48 ≤ c.toNat ∧ c.toNat ≤ 57 := by
    simpa [Char.isDigit, UInt32.le_iff_toNat_le] using h
  simp [isBlank]
  omega

theorem Grammar.isWord_fresh (g : Grammar) {base : String} (h : IsWord base.toList) :
    IsWord (g.fresh base).1.toList := by
  obtain ⟨digits, heq, hdigits⟩ := g.toList_fresh base
  rw [heq]
  refine ⟨by simp, fun c hc => ?_⟩
  rcases List.mem_append.1 hc with hc | hc
  · exact h.2 c hc
  · rcases List.mem_cons.1 hc with rfl | hc
    · decide
    · exact isBlank_of_isDigit (hdigits c hc)

/-- A fresh name has a prime, which the spellings of the empty word have not. -/
theorem Grammar.not_spellsEpsilon_fresh (g : Grammar) (base : String) :
    ¬ SpellsEpsilon (g.fresh base).1 := by
  obtain ⟨digits, heq, -⟩ := g.toList_fresh base
  have hmem : '\'' ∈ (g.fresh base).1.toList := by simp [heq]
  rintro (hepsilon | hepsilon) <;> simp [hepsilon] at hmem

theorem Grammar.spelled_fresh (g : Grammar) {base : String} (h : IsWord base.toList) :
    (Symbol.nonterminal (g.fresh base).1).Spelled := by
  obtain ⟨digits, heq, -⟩ := g.toList_fresh base
  refine ⟨fun hprime => h.1 (List.length_eq_zero_iff.1 ?_), g.not_spellsEpsilon_fresh base⟩
  have hlength := congrArg List.length heq
  simp only [hprime, List.length_append, List.length_cons] at hlength
  have hone : "'".toList.length = 1 := rfl
  omega

/-! ## Taking out left recursion -/

theorem Rule.Spelled.leading (hr : r.Spelled) (hhelper : (Symbol.nonterminal helper).Spelled) :
    ∀ p ∈ r.leading helper, p.Spelled := by
  intro p hp
  obtain ⟨q, hq, rfl⟩ := List.mem_map.1 hp
  refine .concat (fun s hs => ?_) hhelper
  split at hs
  · cases hs
  next hsome =>
    rcases hr.alternatives q (List.mem_of_mem_filter hq) with rfl | hq
    · exact absurd rfl hsome
    · exact hq s hs

theorem Rule.Spelled.trailing (hr : r.Spelled) (hhelper : (Symbol.nonterminal helper).Spelled) :
    (r.trailing helper).Spelled := by
  refine .concat (fun s hs => ?_) hhelper
  obtain ⟨hs, hne⟩ := List.mem_filter.1 hs
  obtain ⟨q, hq, hs⟩ := List.mem_flatMap.1 hs
  exact (hr.alternatives q (List.mem_of_mem_filter hq)).of_mem (List.mem_of_mem_drop hs)
    (by simpa using hne)

namespace Grammar

variable {g : Grammar}

theorem Spelled.eliminateRule (hg : g.Spelled) (hr : r.Spelled) : (g.eliminateRule r).Spelled := by
  by_cases hrec : r.recursive = []
  · rwa [eliminateRule_of_nil hrec]
  have hhelper := g.spelled_fresh hr.name
  rw [eliminateRule_eq hrec]
  refine ⟨fun q hq => ?_, _, mem_rules_insertAfter.2 (.inl rfl), by simp⟩
  rw [mem_rules_insertAfter] at hq
  rcases hq.imp_right mem_rules_of_setAlternatives with rfl | ⟨-, rfl⟩ | hq
  · refine ⟨g.isWord_fresh hr.name, fun p hp => ?_⟩
    rcases List.mem_pair.1 hp with rfl | rfl
    · exact hr.trailing hhelper
    · exact .inl rfl
  · exact ⟨hr.name, hr.leading hhelper⟩
  · exact hg.rules q (by simpa using hq)

theorem Spelled.foldl_eliminateRule {rs : List Rule} (hg : g.Spelled)
    (hrs : ∀ r ∈ rs, r.Spelled) : (rs.foldl Grammar.eliminateRule g).Spelled := by
  induction rs generalizing g with
  | nil => exact hg
  | cons r rs ih =>
    exact ih (hg.eliminateRule (hrs r List.mem_cons_self))
      fun q hq => hrs q (List.mem_cons_of_mem _ hq)

end Grammar

/-! ## Left factoring -/

namespace Factoring

variable {f : Factoring} {members : List Alternative} {groups : List (List Alternative)}

/-- How a rule part way through is spelled. -/
structure Spelled (f : Factoring) : Prop where
  rules : ∀ r ∈ f.grammar.rules, r.Spelled
  alternatives : ∀ p ∈ f.alternatives, p.Spelled

/-- A group keeps the spelling. Two or more alternatives are in one group only if the same symbol
begins them, so the empty word is not among them. -/
theorem Spelled.addGroup (hf : f.Spelled) (hname : IsWord name.toList) (hne : members ≠ [])
    (hmembers : ∀ p ∈ members, p.Spelled)
    (hlead : (∀ p, members ≠ [p]) → ∀ p ∈ members, p.lead.isSome) :
    (f.addGroup name members).Spelled := by
  by_cases hsingle : ∃ p, members = [p]
  · obtain ⟨p, rfl⟩ := hsingle
    refine ⟨hf.rules, fun q hq => ?_⟩
    rcases List.mem_append.1 hq with hq | hq
    · exact hf.alternatives q hq
    · exact hmembers q hq
  have h := not_exists.1 hsingle
  have hsymbols : ∀ p ∈ members, ∀ s ∈ p, s.Spelled := fun p hp => by
    obtain ⟨s, hs⟩ := Option.isSome_iff_exists.1 (hlead h p hp)
    exact (hmembers p hp).of_lead hs
  have hfresh := f.grammar.spelled_fresh hname
  have hrule : (f.remainderRule name members).Spelled := by
    refine ⟨f.grammar.isWord_fresh hname, fun p hp => ?_⟩
    obtain ⟨q, hq, rfl⟩ := List.mem_map.1 hp
    exact .remainder (hsymbols q hq) _
  have hshared : Alternative.Spelled
      (sharedPrefix members ++ [.nonterminal (f.grammar.fresh name).1]) := by
    obtain ⟨first, hfirst⟩ := List.exists_mem_of_ne_nil members hne
    exact .concat (fun s hs => hsymbols first hfirst s ((sharedPrefix_begins hfirst).subset hs))
      hfresh
  refine ⟨fun q hq => ?_, fun p hp => ?_⟩
  · rcases List.mem_cons.1 ((rules_addGroup_perm name f h).mem_iff.1 hq) with rfl | hq
    · exact hrule
    · exact hf.rules q hq
  · rw [addGroup_of_ne name f h] at hp
    rcases List.mem_append.1 hp with hp | hp
    · exact hf.alternatives p hp
    · exact List.mem_singleton.1 hp ▸ hshared

theorem Spelled.foldl_addGroup (hf : f.Spelled) (hname : IsWord name.toList)
    (hgroups : ∀ members ∈ groups, members ≠ [] ∧ (∀ p ∈ members, p.Spelled) ∧
      ((∀ p, members ≠ [p]) → ∀ p ∈ members, p.lead.isSome)) :
    (groups.foldl (Factoring.addGroup name) f).Spelled := by
  induction groups generalizing f with
  | nil => exact hf
  | cons members groups ih =>
    obtain ⟨hne, hmembers, hlead⟩ := hgroups members List.mem_cons_self
    exact ih (hf.addGroup hname hne hmembers hlead)
      fun group hgroup => hgroups group (List.mem_cons_of_mem _ hgroup)

/-- Every group gives one alternative. -/
theorem length_alternatives_foldl_addGroup (name : String) (f : Factoring)
    (groups : List (List Alternative)) :
    (groups.foldl (Factoring.addGroup name) f).alternatives.length
      = f.alternatives.length + groups.length := by
  induction groups generalizing f with
  | nil => rfl
  | cons members groups ih =>
    have hone : (f.addGroup name members).alternatives.length = f.alternatives.length + 1 := by
      unfold addGroup
      split <;> simp
    rw [List.foldl_cons, ih, hone, List.length_cons]
    omega

end Factoring

namespace Grammar

variable {g : Grammar}

/-- Two or more alternatives are in one group only if a symbol begins them. -/
theorem isSome_lead_of_mem_groups {members : List Alternative}
    (h : members ∈ (leadGroups r.alternatives).map (·.map Prod.fst))
    (hmany : ∀ p, members ≠ [p]) : ∀ p ∈ members, p.lead.isSome := by
  obtain ⟨s, hlead⟩ := exists_lead_of_mem_groups h hmany
  exact fun p hp => Option.isSome_iff_exists.2 ⟨s, hlead p hp⟩

theorem Spelled.factorGroups (hg : g.Spelled) (hr : r.Spelled) : (g.factorGroups r).Spelled := by
  have hstart : Factoring.Spelled ⟨g, r.name, [], []⟩ := ⟨hg.rules, by simp⟩
  refine hstart.foldl_addGroup hr.name fun members hmembers => ?_
  obtain ⟨hne, hmem⟩ := mem_groups_of_rule hmembers
  exact ⟨hne, fun p hp => hr.alternatives p (hmem p hp), isSome_lead_of_mem_groups hmembers⟩

/-- A rule that has an alternative has one after it is factored. -/
theorem alternatives_factorGroups_ne_nil (h : r.alternatives ≠ []) :
    (g.factorGroups r).alternatives ≠ [] := by
  obtain ⟨p, hp⟩ := List.exists_mem_of_ne_nil _ h
  obtain ⟨members, hmembers, -⟩ := List.mem_flatten.1 (mem_flatten_groups.2 hp)
  have hlength := Factoring.length_alternatives_foldl_addGroup r.name ⟨g, r.name, [], []⟩
    ((leadGroups r.alternatives).map (·.map Prod.fst))
  have hpos := List.length_pos_of_mem hmembers
  intro hnil
  rw [factorGroups] at hnil
  simp only [hnil, List.length_nil] at hlength
  omega

theorem Spelled.factorRule (hg : g.Spelled) (hwf : g.WellFormed) (hr : r ∈ g.rules) :
    (g.factorRule r).1.Spelled := by
  have hspelled := hg.rules r hr
  have hgroups := hg.factorGroups hspelled
  refine ⟨fun q hq => ?_, ?_⟩
  · rcases mem_rules_of_setAlternatives hq with ⟨-, rfl⟩ | hq
    · exact ⟨hspelled.name, hgroups.alternatives⟩
    · exact hgroups.rules q hq
  · -- The rule that has an alternative may be the one that is factored.
    obtain ⟨q, hq, hsome⟩ := hg.exists_alternative
    by_cases hname : q.name = r.name
    · obtain rfl := List.inj_on_of_nodup_map hwf.nodup hq hr hname
      refine ⟨⟨q.name, (g.factorGroups q).alternatives⟩, ?_, alternatives_factorGroups_ne_nil hsome⟩
      exact mem_rules_setAlternatives_self ((factorRule_correct hwf hr).1.name_mem hr)
    · exact ⟨q, mem_rules_factorRule hwf hr (List.mem_append_right _ hq) hname, hsome⟩

theorem Spelled.factorQueue {queue : List Rule} (hg : g.Spelled) (hwf : g.WellFormed)
    (hnodup : (queue.map Rule.name).Nodup) (hqueue : ∀ q ∈ queue, q ∈ g.rules) :
    (g.factorQueue queue).Spelled := by
  fun_induction Grammar.factorQueue g queue with
  | case1 => exact hg
  | case2 g r queue ih =>
    have hr := hqueue r List.mem_cons_self
    obtain ⟨hnodup, hqueue⟩ := queue_factorRule hwf hnodup hqueue
    exact ih (hg.factorRule hwf hr) (wellFormed_factorRule hwf hr) hnodup hqueue

/-- All attainable grammars are spelled like this. -/
theorem Attainable.spelled (h : g.Attainable) : g.Spelled := by
  induction h with
  | ofText h => exact spelled_ofText h
  | eliminateLeftRecursion _ ih => exact ih.foldl_eliminateRule ih.rules
  | leftFactor h ih => exact ih.factorQueue h.wellFormed h.wellFormed.nodup fun _ hq => hq

/-- The names of symbols are words. -/
theorem Attainable.isWord_name (hg : g.Attainable) {s : Symbol} (hs : s ∈ g.occurrences) :
    IsWord s.name.toList := by
  obtain ⟨r, hr, p, hp, hmem⟩ := mem_occurrences.1 hs
  rcases (hg.spelled.rules r hr).alternatives p hp with rfl | hspelled
  · obtain rfl := List.mem_singleton.1 hmem
    exact ⟨by simp [Symbol.name], by simp [Symbol.name, isBlank]⟩
  have hspelled := hspelled s hmem
  cases s with
  | terminal a => exact hspelled.1.word
  | nonterminal name =>
    have hname : name ∈ g.names := hg.wellFormed.admits _ hs
    obtain ⟨q, hq, rfl⟩ := mem_names.1 hname
    exact (hg.spelled.rules q hq).name
  | _ => exact hspelled.elim

/-- The names of terminals are words, and so is that of the end marker. -/
theorem Attainable.isWord_name_of_mem_terminals (hg : g.Attainable) {s : Symbol}
    (hs : s ∈ g.terminals) : IsWord s.name.toList := by
  rcases hg.wellFormed.mem_terminals_iff.1 hs with rfl | ⟨a, rfl, hmem⟩
  · exact ⟨by simp [Symbol.name], by simp [Symbol.name, isBlank]⟩
  · exact hg.isWord_name hmem

theorem Attainable.spelled_of_mem (hg : g.Attainable) {p : Alternative}
    (hp : p ∈ g.alternatives name) : p.Spelled := by
  obtain ⟨r, hr, -, hp⟩ := exists_rule_of_mem_alternatives hp
  exact (hg.spelled.rules r hr).alternatives p hp

end Grammar

end PredictiveParsing
