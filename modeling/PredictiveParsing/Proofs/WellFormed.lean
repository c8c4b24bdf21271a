import PredictiveParsing.Grammar.Reader
import PredictiveParsing.Proofs.Derivation
import PredictiveParsing.Proofs.FreshNames

/-!
# Well-formed grammars

A grammar is well-formed if each name has one rule, the start symbol is the first nonterminal, the
nonterminals in its alternatives are declared, and its terminals are told apart from nonterminals
and from the end marker by their names. A grammar that is read from a text is well-formed, and it
stays so when a rule with a fresh name is added.

## Main definitions

* `Grammar.Admits`: the symbols that an alternative may contain.
* `Grammar.WellFormed`: the invariant of all grammars.

## Main statements

* `Grammar.WellFormed.extend`: a rule with a fresh name keeps a grammar well-formed.
* `Grammar.wellFormed_ofText`: the grammar of a text is well-formed.
-/

namespace PredictiveParsing

namespace Grammar

/-- The symbols that an alternative may contain. -/
def Admits (g : Grammar) : Symbol → Prop
  | .terminal a => a ∉ g.names ∧ a ≠ "$"
  | .nonterminal name => name ∈ g.names
  | .epsilon => True
  | .endMarker => False

/-- The invariant of all grammars. -/
structure WellFormed (g : Grammar) : Prop where
  nodup : g.names.Nodup
  start : g.names.head? = some g.start
  admits : ∀ s ∈ g.occurrences, g.Admits s

variable {g h : Grammar} {name : String} {s : Symbol}

theorem WellFormed.start_mem (hg : g.WellFormed) : g.start ∈ g.names :=
  List.mem_of_head? hg.start

theorem WellFormed.names_ne_nil (hg : g.WellFormed) : g.names ≠ [] :=
  List.ne_nil_of_mem hg.start_mem

theorem WellFormed.admits_of_mem (hg : g.WellFormed) {p : Alternative}
    (hp : p ∈ g.alternatives name) (hs : s ∈ p) : g.Admits s :=
  hg.admits s (mem_occurrences_of_mem_alternatives hp hs)

theorem WellFormed.alternatives_eq (hg : g.WellFormed) {r : Rule} (hr : r ∈ g.rules) :
    g.alternatives r.name = r.alternatives := alternatives_of_mem hg.nodup hr

theorem WellFormed.mem_occurrences_iff (hg : g.WellFormed) {s : Symbol} :
    s ∈ g.occurrences ↔ ∃ name, ∃ p ∈ g.alternatives name, s ∈ p := by
  refine ⟨fun hs => ?_, fun ⟨_, _, hp, hs⟩ => mem_occurrences_of_mem_alternatives hp hs⟩
  obtain ⟨r, hr, p, hp, hs⟩ := mem_occurrences.1 hs
  exact ⟨r.name, p, by rwa [hg.alternatives_eq hr], hs⟩

/-- An end marker that is not in a form is not derived. -/
theorem WellFormed.endMarker_not_mem_of_derives (hg : g.WellFormed) {u v : List Symbol}
    (h : g.Derives u v) (hu : .endMarker ∉ u) : .endMarker ∉ v := by
  induction h with
  | refl => exact hu
  | tail _ hstep ih =>
    obtain ⟨before, after, hp⟩ := hstep
    simp only [List.mem_append, List.mem_cons, not_or] at ih ⊢
    exact ⟨ih.1, fun h => hg.admits_of_mem hp h, ih.2.2⟩

/-! ## Terminals -/

theorem mem_terminals :
    s ∈ g.terminals ↔ s = .endMarker ∨ ∃ a, s = .terminal a ∧ s ∈ g.occurrences ∧ a ∉ g.names := by
  rw [terminals_eq]
  cases s <;> simp [ownTerminal, ← Bool.not_eq_true]

theorem WellFormed.terminal_mem_terminals (hg : g.WellFormed) {a : String}
    (h : .terminal a ∈ g.occurrences) : .terminal a ∈ g.terminals :=
  mem_terminals.2 (.inr ⟨a, rfl, h, (hg.admits _ h).1⟩)

theorem WellFormed.mem_terminals_iff (hg : g.WellFormed) {s : Symbol} :
    s ∈ g.terminals ↔ s = .endMarker ∨ ∃ a, s = .terminal a ∧ .terminal a ∈ g.occurrences := by
  rw [mem_terminals]
  refine or_congr_right (exists_congr fun a => and_congr_right fun hs => ?_)
  subst hs
  exact ⟨And.left, fun ha => ⟨ha, (hg.admits _ ha).1⟩⟩

/-- The check for a name reads the index and the terminals only, but it knows all names in use. -/
theorem isTaken_iff_of_rules :
    g.isTaken name ↔ name ∈ g.names ∨ name = "$" ∨ .terminal name ∈ g.occurrences := by
  rw [isTaken, Bool.or_eq_true_iff, declares_iff]
  simp only [List.any_eq_true, beq_iff_eq, mem_terminals]
  constructor
  · rintro (h | ⟨s, rfl | ⟨a, rfl, hs, -⟩, rfl⟩)
    · exact .inl h
    · exact .inr (.inl rfl)
    · exact .inr (.inr hs)
  · rintro (h | rfl | hs)
    · exact .inl h
    · exact .inr ⟨_, .inl rfl, rfl⟩
    · by_cases hname : name ∈ g.names
      · exact .inl hname
      · exact .inr ⟨_, .inr ⟨name, rfl, hs, hname⟩, rfl⟩

theorem mem_taken :
    name ∈ g.taken ↔ name ∈ g.names ∨ name = "$" ∨ .terminal name ∈ g.occurrences :=
  isTaken_iff.symm.trans isTaken_iff_of_rules

/-- A name that is not taken is not the name of a symbol in an alternative. -/
theorem WellFormed.not_mem_occurrences (hg : g.WellFormed) (h : name ∉ g.taken) :
    .terminal name ∉ g.occurrences ∧ .nonterminal name ∉ g.occurrences := by
  rw [mem_taken] at h
  exact ⟨fun hs => h (.inr (.inr hs)), fun hs => h (.inl (hg.admits _ hs))⟩

/-! ## Another rule -/

/-- A rule with a fresh name keeps a grammar well-formed if it brings in no new symbols but its
own. -/
theorem WellFormed.extend (hg : g.WellFormed) (hname : name ∉ g.taken)
    (hnames : h.names.Perm (name :: g.names)) (hhead : h.names.head? = g.names.head?)
    (hstart : h.start = g.start)
    (hocc : ∀ s ∈ h.occurrences, s = .epsilon ∨ s = .nonterminal name ∨ s ∈ g.occurrences) :
    h.WellFormed where
  nodup := by
    refine hnames.nodup_iff.2 (List.nodup_cons.2 ⟨fun hmem => hname ?_, hg.nodup⟩)
    exact mem_taken.2 (.inl hmem)
  start := by rw [hhead, hstart, hg.start]
  admits s hs := by
    rcases hocc s hs with rfl | rfl | hs
    · trivial
    · exact hnames.mem_iff.2 List.mem_cons_self
    · have hs' := hg.admits s hs
      cases s with
      | terminal a =>
        refine ⟨fun ha => ?_, hs'.2⟩
        rcases List.mem_cons.1 (hnames.mem_iff.1 ha) with rfl | ha
        · exact (hg.not_mem_occurrences hname).1 hs
        · exact hs'.1 ha
      | nonterminal other => exact hnames.mem_iff.2 (List.mem_cons_of_mem _ hs')
      | epsilon => trivial
      | endMarker => exact hs'.elim

/-- Other alternatives keep a grammar well-formed if they bring in no new symbols. -/
theorem WellFormed.setAlternatives (hg : g.WellFormed) {ps : List Alternative}
    (hps : ∀ p ∈ ps, ∀ s ∈ p, g.Admits s) : (g.setAlternatives name ps).WellFormed where
  nodup := by simpa using hg.nodup
  start := by simpa using hg.start
  admits s hs := by
    have hadmits : g.Admits s := by
      obtain ⟨r, hr, p, hp, hs⟩ := mem_occurrences.1 hs
      rcases mem_rules_of_setAlternatives hr with ⟨-, rfl⟩ | hr
      · exact hps p hp s hs
      · exact hg.admits s (mem_occurrences.2 ⟨r, hr, p, hp, hs⟩)
    unfold Admits at hadmits ⊢
    simpa using hadmits

end Grammar

/-! ## Grammars of texts -/

theorem Symbol.ofLexeme_ne_endMarker (declared : List String) (lexeme : String) :
    Symbol.ofLexeme declared lexeme ≠ .endMarker := by
  unfold Symbol.ofLexeme
  split
  · simp
  · split <;> simp

theorem Symbol.ofLexeme_eq_terminal {declared : List String} {lexeme a : String}
    (h : Symbol.ofLexeme declared lexeme = .terminal a) : a = lexeme ∧ a ∉ declared := by
  unfold Symbol.ofLexeme at h
  grind

theorem Symbol.ofLexeme_eq_nonterminal {declared : List String} {lexeme name : String}
    (h : Symbol.ofLexeme declared lexeme = .nonterminal name) :
    name = lexeme ∧ name ∈ declared := by
  unfold Symbol.ofLexeme at h
  grind

theorem Alternative.exists_lexeme_of_mem {declared lexemes : List String} {s : Symbol}
    (h : s ∈ Alternative.ofLexemes declared lexemes) :
    ∃ lexeme ∈ lexemes, Symbol.ofLexeme declared lexeme = s := by
  simp only [Alternative.ofLexemes] at h
  have : s ∈ lexemes.map (Symbol.ofLexeme declared) := by
    split at h
    · exact List.mem_of_mem_filter h
    · exact h
  simpa using this

namespace Grammar

theorem nodup_eraseDups {α : Type} [BEq α] [LawfulBEq α] (xs : List α) : xs.eraseDups.Nodup := by
  induction hn : xs.length using Nat.strongRecOn generalizing xs with
  | ind n ih =>
    cases xs with
    | nil => simp
    | cons x xs =>
      rw [List.eraseDups_cons, List.nodup_cons]
      have hlt : (xs.filter fun y => !y == x).length < n :=
        hn ▸ Nat.lt_succ_of_le (List.length_filter_le ..)
      exact ⟨by simp, ih _ hlt _ rfl⟩

/-- The nonterminals are the left sides, once each. -/
theorem names_of_rules_eq {g : Grammar} {declarations : List Declaration}
    (hrules : g.rules = rulesOf declarations) :
    g.names = (declarations.map Declaration.left).eraseDups := by
  simp [names, hrules, rulesOf, Function.comp_def]

/-- A symbol in a rule comes from a lexeme of a declaration. -/
theorem exists_lexeme_of_mem_rulesOf {declarations : List Declaration} {r : Rule}
    {p : Alternative} {s : Symbol} (hr : r ∈ rulesOf declarations) (hp : p ∈ r.alternatives)
    (hs : s ∈ p) :
    ∃ d ∈ declarations, ∃ lexemes ∈ d.right, ∃ lexeme ∈ lexemes,
      Symbol.ofLexeme (declarations.map Declaration.left).eraseDups lexeme = s := by
  obtain ⟨name, -, rfl⟩ := List.mem_map.1 hr
  obtain ⟨d, hd, hp⟩ := List.mem_flatMap.1 hp
  obtain ⟨lexemes, hlexemes, rfl⟩ := List.mem_map.1 hp
  obtain ⟨lexeme, hlexeme, hs⟩ := Alternative.exists_lexeme_of_mem hs
  exact ⟨d, List.mem_of_mem_filter hd, lexemes, List.mem_of_mem_filter hlexemes, lexeme, hlexeme,
    hs⟩

/-- The rules of a grammar that has been read, and what the reader has checked about them. -/
theorem ofText_eq_ok {text : String} (h : ofText text = .ok g) :
    (∀ d ∈ Declaration.ofText text.toList, d.usesEndMarker = false) ∧
      g.rules = rulesOf (Declaration.ofText text.toList) ∧ g.names.head? = some g.start := by
  simp only [ofText] at h
  split at h
  · simp at h
  next hfind =>
    split at h
    · simp at h
    next first rest hrules =>
      split at h
      · simp at h
      · cases h
        exact ⟨fun d hd => by simpa using List.find?_eq_none.1 hfind d hd, hrules.symm, rfl⟩

/-- The grammar of a text is well-formed. -/
theorem wellFormed_ofText {text : String} (h : ofText text = .ok g) : g.WellFormed := by
  obtain ⟨hmarker, hrules, hstart⟩ := ofText_eq_ok h
  have hnames := names_of_rules_eq hrules
  refine ⟨hnames ▸ nodup_eraseDups _, hstart, fun s hs => ?_⟩
  obtain ⟨r, hr, p, hp, hs⟩ := mem_occurrences.1 hs
  obtain ⟨d, hd, lexemes, hlexemes, lexeme, hlexeme, hsymbol⟩ :=
    exists_lexeme_of_mem_rulesOf (hrules ▸ hr) hp hs
  rw [← hnames] at hsymbol
  cases s with
  | terminal a =>
    obtain ⟨rfl, ha⟩ := Symbol.ofLexeme_eq_terminal hsymbol
    refine ⟨ha, ?_⟩
    rintro rfl
    have := hmarker d hd
    simp only [Declaration.usesEndMarker, List.any_eq_false, List.contains_iff_mem] at this
    exact this lexemes hlexemes hlexeme
  | nonterminal name => exact (Symbol.ofLexeme_eq_nonterminal hsymbol).2
  | epsilon => trivial
  | endMarker => exact absurd hsymbol (Symbol.ofLexeme_ne_endMarker _ _)

end Grammar

end PredictiveParsing
