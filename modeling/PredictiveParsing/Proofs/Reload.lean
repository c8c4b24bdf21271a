import PredictiveParsing.Proofs.Spelling
import PredictiveParsing.Render.Rules

/-!
# Written grammars are read back

The rules of an attainable grammar, written one by one and joined by semicolons, are a text from
which the same grammar is read. A nonterminal may have a name that is more than one lexeme, such as
`A,` on a left side, and an alternative without symbols has no lexeme at all. So this holds of
grammars whose nonterminals are named with name characters only and which have no such alternative.

## Main definitions

* `RuleText.declaration`: a written rule as a declaration.
* `RuleText.Legible`: what is asked of the names in a rule.

## Main statements

* `RuleText.Legible.ofPiece?_eq`: a declaration is read back.
* `Grammar.ofText_source`: a grammar is read back.
-/

namespace PredictiveParsing

open Text

/-- What is written and read back one by one is read back as a whole. -/
theorem map_map_eq_self {α β : Type} {write : α → β} {read : β → α} {xs : List α}
    (h : ∀ x ∈ xs, read (write x) = x) : (xs.map write).map read = xs := by
  rw [List.map_map]
  exact (List.map_congr_left h).trans (List.map_id xs)

/-! ## Written rules -/

namespace RuleText

/-- The rule as a declaration. Without alternatives it ends with its arrow. -/
def declaration (r : RuleText) (width : Nat) (multiline : Bool) : String :=
  if r.rights.isEmpty then Grammar.plainRule width r else r.plain width multiline

/-- The characters of the written alternatives. -/
def sides (r : RuleText) : List (List Char) :=
  r.rights.map fun right => [' '].intercalate (right.map String.toList)

/-- The characters of a declaration after its arrow. -/
def rightSide (r : RuleText) (width : Nat) (multiline : Bool) : List Char :=
  if r.rights.isEmpty then []
  else ' ' :: (bar width multiline).toList.intercalate r.sides

/-- The declaration that is read from a written rule. -/
def reread (r : RuleText) (width : Nat) (multiline : Bool) (number : Nat) : Declaration :=
  ⟨number, r.left, Declaration.alternativeLexemes (r.rightSide width multiline)⟩

variable {r : RuleText} {width : Nat} {multiline : Bool}

theorem toList_declaration (r : RuleText) (width : Nat) (multiline : Bool) :
    (r.declaration width multiline).toList
      = List.replicate (width - r.left.toList.length) ' ' ++ r.left.toList
        ++ ' ' :: '-' :: '>' :: r.rightSide width multiline := by
  unfold declaration rightSide sides
  split
  next h => simp [Grammar.plainRule, h, padLeft, List.leftpad]
  next h =>
    simp [plain, h, padLeft, List.leftpad, String.toList_intercalate, Function.comp_def]

/-- Between two alternatives stands a bar among blanks. -/
theorem exists_toList_bar (width : Nat) (multiline : Bool) :
    ∃ before, isBlankText before ∧ (bar width multiline).toList = before ++ '|' :: [' '] := by
  cases multiline with
  | false => exact ⟨[' '], by decide, by simp [bar]⟩
  | true =>
    refine ⟨'\n' :: List.replicate width ' ' ++ [' ', ' '], ?_, ?_⟩
    · simp [isBlankText, isBlank]
    · simp [bar, padLeft, List.leftpad]

/-- What is asked of the names in a rule so that they can be read back. -/
structure Legible (r : RuleText) : Prop where
  word : IsWord r.left.toList
  name : ∀ c ∈ r.left.toList, Lexeme.isNameChar c
  ne_nil : ∀ right ∈ r.rights, right ≠ []
  lexeme : ∀ right ∈ r.rights, ∀ name ∈ right, IsLexeme name.toList

namespace Legible

variable (h : r.Legible)
include h

/-- A character that is in no name is not in the written name. -/
theorem not_mem_left {c : Char} (hc : Lexeme.isNameChar c = false) : c ∉ r.left.toList :=
  fun hmem => by simp [h.name c hmem] at hc

/-- A written alternative has none of the characters at which a declaration is cut. -/
theorem of_mem_sides {side : List Char} (hside : side ∈ r.sides) :
    '|' ∉ side ∧ ';' ∉ side ∧ Unarrowed side := by
  obtain ⟨right, hright, rfl⟩ := List.mem_map.1 hside
  have hlexemes : ∀ cs ∈ right.map String.toList, IsLexeme cs :=
    List.forall_mem_map.2 (h.lexeme right hright)
  exact ⟨not_mem_intercalate (by decide) fun cs hcs => (hlexemes cs hcs).not_bar,
    not_mem_intercalate (by decide) fun cs hcs => (hlexemes cs hcs).not_semicolon,
    .intercalate (fun cs hcs => (hlexemes cs hcs).unarrowed) (by simp) (by simp)⟩

theorem lexemes_sides :
    r.sides.map (fun side => (Lexeme.lexemes side).map String.ofList) = r.rights := by
  refine map_map_eq_self fun right hright => ?_
  rw [Lexeme.lexemes_intercalate (List.forall_mem_map.2 (h.lexeme right hright))]
  exact map_map_eq_self fun name _ => String.ofList_toList

theorem unarrowed_rightSide : Unarrowed (r.rightSide width multiline) := by
  unfold rightSide
  split
  · exact .nil
  obtain ⟨before, hbefore, hbar⟩ := exists_toList_bar width multiline
  have hplain : ∀ c ∈ (bar width multiline).toList, c ≠ '-' ∧ c ≠ '>' := by
    have hhyphen := not_mem_of_isBlankText hbefore (c := '-') (by decide)
    have hbracket := not_mem_of_isBlankText hbefore (c := '>') (by decide)
    grind
  have hnil : Unarrowed [] := .nil
  have hsides : Unarrowed ((bar width multiline).toList.intercalate r.sides) :=
    .intercalate (fun _ hside => (h.of_mem_sides hside).2.2) (by simp [hbar]) hplain
  exact hnil.append hsides (List.cons_ne_nil ' ' []) (by simp)

/-- The alternatives are read back, since none of them is without symbols. -/
theorem filter_right_reread (number : Nat) :
    (r.reread width multiline number).right.filter (!·.isEmpty) = r.rights := by
  change (Declaration.alternativeLexemes (r.rightSide width multiline)).filter (!·.isEmpty) = _
  unfold rightSide
  split
  next hnil => simp_all [Declaration.alternativeLexemes, pieces, Lexeme.lexemes, words]
  next hsome =>
    obtain ⟨before, hbefore, hbar⟩ := exists_toList_bar width multiline
    have hblank : isBlankText [' '] := by decide
    have hread := Declaration.alternativeLexemes_intercalate hbefore hblank hblank
      (by simpa [sides] using hsome) fun _ hside => (h.of_mem_sides hside).1
    rw [hbar, ← List.singleton_append, hread, h.lexemes_sides, List.filter_eq_self]
    exact fun right hright => by simpa using h.ne_nil right hright

/-- A declaration is read back. -/
theorem ofPiece?_eq (number : Nat) :
    Declaration.ofPiece? number (r.declaration width multiline).toList
      = some (r.reread width multiline number) := by
  have hlead : isBlankText (List.replicate (width - r.left.toList.length) ' ') := by
    simp [isBlankText, isBlank]
  rw [toList_declaration, Declaration.ofPiece?_eq number hlead h.word
    (h.not_mem_left Lexeme.isNameChar_separators.1) h.unarrowed_rightSide, String.ofList_toList]
  rfl

theorem semicolon_not_mem : ';' ∉ (r.declaration width multiline).toList := by
  have hleft := h.not_mem_left Lexeme.isNameChar_separators.2.2.1
  have hright : ';' ∉ r.rightSide width multiline := by
    unfold rightSide
    split
    · simp
    obtain ⟨before, hbefore, hbar⟩ := exists_toList_bar width multiline
    have hbefore := not_mem_of_isBlankText hbefore (c := ';') (by decide)
    exact List.not_mem_cons_of_ne_of_not_mem (by decide)
      (not_mem_intercalate (by simp [hbar, hbefore]) fun _ hside => (h.of_mem_sides hside).2.1)
  rw [toList_declaration]
  simp [hleft, hright]

end Legible

end RuleText

namespace Grammar

/-! ## Rules of declarations -/

section Declarations

variable {declarations : List Declaration}

theorem eraseDups_of_nodup {names : List String} (h : names.Nodup) : names.eraseDups = names := by
  induction names with
  | nil => rfl
  | cons name names ih =>
    obtain ⟨hnot, hnodup⟩ := List.nodup_cons.1 h
    have hrest : names.filter (fun other => !other == name) = names :=
      List.filter_eq_self.2 fun other hother => by simpa using ne_of_mem_of_not_mem hother hnot
    rw [List.eraseDups_cons, hrest, ih hnodup]

theorem filter_left_eq (h : (declarations.map Declaration.left).Nodup) {d : Declaration}
    (hd : d ∈ declarations) : declarations.filter (·.left == d.left) = [d] := by
  induction declarations with
  | nil => cases hd
  | cons e declarations ih =>
    obtain ⟨hnot, hnodup⟩ := List.nodup_cons.1 h
    rcases List.mem_cons.1 hd with rfl | hd
    · have hnone : ∀ f ∈ declarations, ¬ (f.left == d.left) := fun f hf hleft =>
        hnot (eq_of_beq hleft ▸ List.mem_map_of_mem hf)
      rw [List.filter_cons, if_pos (beq_self_eq_true d.left), List.filter_eq_nil_iff.2 hnone]
    · have hleft : ¬ (e.left == d.left) := fun hleft =>
        hnot (eq_of_beq hleft ▸ List.mem_map_of_mem hd)
      rw [List.filter_cons, if_neg hleft, ih hnodup hd]

/-- The rules of declarations for different nonterminals. -/
theorem rulesOf_of_nodup (h : (declarations.map Declaration.left).Nodup) :
    rulesOf declarations = declarations.map fun d =>
      ⟨d.left, d.alternatives (declarations.map Declaration.left)⟩ := by
  simp only [rulesOf, eraseDups_of_nodup h, List.map_map]
  refine List.map_congr_left fun d hd => ?_
  simp [filter_left_eq h hd]

end Declarations

variable {g : Grammar}

theorem isLexeme_epsilon : IsLexeme Symbol.epsilon.name.toList := by
  have hblank : isBlank 'ε' = false := by decide
  have hname : Lexeme.isNameChar 'ε' := by decide +kernel
  exact Lexeme.isLexeme_of_isNameChar ⟨by decide, by simpa [Symbol.name] using hblank⟩
    (by simpa [Symbol.name] using hname) (by decide)

/-- A text is read if its rules are right. -/
theorem ofText_eq_of_rulesOf {text : String} (hg : g.Spelled)
    (hstart : g.names.head? = some g.start)
    (hmarker : ∀ d ∈ Declaration.ofText text.toList, d.usesEndMarker = false)
    (hrules : rulesOf (Declaration.ofText text.toList) = g.rules) :
    ofText text = .ok { rules := g.rules, start := g.start } := by
  have hnone : (Declaration.ofText text.toList).find? Declaration.usesEndMarker = none :=
    List.find?_eq_none.2 fun d hd => by simp [hmarker d hd]
  have hsome : ¬ g.rules.all (·.alternatives.isEmpty) := fun hall => by
    obtain ⟨r, hr, hne⟩ := hg.exists_alternative
    exact hne (by simpa using List.all_eq_true.1 hall r hr)
  simp only [ofText, hnone, hrules]
  unfold names at hstart
  cases hfirst : g.rules with
  | nil => simp [hfirst] at hstart
  | cons first rest =>
    have hname : first.name = g.start := by simpa [hfirst] using hstart
    rw [hfirst] at hsome
    simp only [hsome, hname]
    rfl

/-! ## Reading a grammar back -/

/-- The rules of a grammar as declarations. The layout may be another one for each nonterminal. -/
def source (g : Grammar) (width : String → Nat) (multiline : String → Bool) : String :=
  ";".intercalate (g.ruleTexts.map fun r => r.declaration (width r.left) (multiline r.left))

section Source

variable {r : Rule} {p : Alternative} {s : Symbol} (hg : g.Attainable)
  (hnames : ∀ name ∈ g.names, ∀ c ∈ name.toList, Lexeme.isNameChar c)
include hg hnames

/-- A symbol in an alternative is read back from its name. -/
theorem Attainable.read_name (hr : r ∈ g.rules) (hp : p ∈ r.alternatives) (hs : s ∈ p) :
    IsLexeme s.name.toList ∧ Symbol.ofLexeme g.names s.name = s ∧ s.name ≠ "$" := by
  have hadmits := hg.wellFormed.admits s (mem_occurrences.2 ⟨r, hr, p, hp, hs⟩)
  rcases (hg.spelled.rules r hr).alternatives p hp with rfl | hspelled
  · obtain rfl := List.mem_singleton.1 hs
    exact ⟨isLexeme_epsilon, rfl, by decide⟩
  have hspelled := hspelled s hs
  cases s with
  | terminal a =>
    obtain ⟨hlexeme, hne⟩ := hspelled
    obtain ⟨hmem, hmarker⟩ := hadmits
    exact ⟨hlexeme, by simp_all [Symbol.ofLexeme, Symbol.name, SpellsEpsilon], hmarker⟩
  | nonterminal name =>
    obtain ⟨hprime, hne⟩ := hspelled
    have hmem : name ∈ g.names := hadmits
    have hchars := hnames name hmem
    refine ⟨Lexeme.isLexeme_of_isNameChar ?_ hchars ?_, ?_, ?_⟩
    · obtain ⟨q, hq, rfl⟩ := mem_names.1 hmem
      exact (hg.spelled.rules q hq).name
    · exact fun heq => hprime (String.toList_inj.1 heq)
    · simp_all [Symbol.ofLexeme, Symbol.name, SpellsEpsilon]
    · rintro rfl
      simpa [Lexeme.isNameChar_separators] using hchars '$' (by decide)
  | _ => exact hspelled.elim

theorem Attainable.legible_ofRule (hr : r ∈ g.rules) (hne : [] ∉ r.alternatives) :
    (RuleText.ofRule r).Legible where
  word := (hg.spelled.rules r hr).name
  name := hnames r.name (name_mem_names hr)
  ne_nil right hright := by
    obtain ⟨p, hp, rfl⟩ := List.mem_map.1 hright
    simpa using ne_of_mem_of_not_mem hp hne
  lexeme right hright name hname := by
    obtain ⟨p, hp, rfl⟩ := List.mem_map.1 hright
    obtain ⟨s, hs, rfl⟩ := List.mem_map.1 hname
    exact (hg.read_name hnames hr hp hs).1

/-- An alternative is read back from its names. -/
theorem Attainable.ofLexemes_names (hr : r ∈ g.rules) (hp : p ∈ r.alternatives) :
    Alternative.ofLexemes g.names (p.map Symbol.name) = p := by
  have hread : (p.map Symbol.name).map (Symbol.ofLexeme g.names) = p :=
    map_map_eq_self fun s hs => (hg.read_name hnames hr hp hs).2.1
  simp only [Alternative.ofLexemes, hread]
  split
  next hlong =>
    rcases (hg.spelled.rules r hr).alternatives p hp with rfl | hspelled
    · simp at hlong
    · refine List.filter_eq_self.2 fun s hs => bne_iff_ne.2 ?_
      rintro rfl
      exact hspelled _ hs
  next => rfl

theorem Attainable.alternatives_reread (hr : r ∈ g.rules) (hne : [] ∉ r.alternatives)
    (width : Nat) (multiline : Bool) (number : Nat) :
    ((RuleText.ofRule r).reread width multiline number).alternatives g.names = r.alternatives := by
  have hlegible := hg.legible_ofRule hnames hr hne
  have hread : (r.alternatives.map (·.map Symbol.name)).map (Alternative.ofLexemes g.names)
      = r.alternatives :=
    map_map_eq_self fun p hp => hg.ofLexemes_names hnames hr hp
  rw [Declaration.alternatives, hlegible.filter_right_reread]
  exact hread

theorem Attainable.usesEndMarker_reread (hr : r ∈ g.rules) (hne : [] ∉ r.alternatives)
    (width : Nat) (multiline : Bool) (number : Nat) :
    ((RuleText.ofRule r).reread width multiline number).usesEndMarker = false := by
  have hlegible := hg.legible_ofRule hnames hr hne
  -- An alternative with a lexeme in it is not dropped, so it is one of the rule.
  refine List.any_eq_false.2 fun lexemes hlexemes hmem => ?_
  have hmem : "$" ∈ lexemes := List.contains_iff_mem.1 hmem
  have hkept : lexemes ∈ (RuleText.ofRule r).rights := by
    rw [← hlegible.filter_right_reread number]
    exact List.mem_filter.2 ⟨hlexemes, by simp [List.ne_nil_of_mem hmem]⟩
  obtain ⟨p, hp, rfl⟩ := List.mem_map.1 hkept
  obtain ⟨s, hs, hname⟩ := List.mem_map.1 hmem
  exact (hg.read_name hnames hr hp hs).2.2 hname

variable (halternatives : ∀ r ∈ g.rules, [] ∉ r.alternatives) (width : String → Nat)
  (multiline : String → Bool)
include halternatives

theorem Attainable.ofText_toList_source :
    Declaration.ofText (g.source width multiline).toList = (g.rules.zipIdx 1).map fun q =>
      (RuleText.ofRule q.1).reread (width q.1.name) (multiline q.1.name) q.2 := by
  have hlegible : ∀ r ∈ g.rules, (RuleText.ofRule r).Legible := fun r hr =>
    hg.legible_ofRule hnames hr (halternatives r hr)
  have hchars : (g.source width multiline).toList = [';'].intercalate (g.rules.map fun r =>
      ((RuleText.ofRule r).declaration (width r.name) (multiline r.name)).toList) := by
    simp [source, ruleTexts, String.toList_intercalate, Function.comp_def, RuleText.ofRule]
  have hne : g.rules ≠ [] := by simpa [names] using hg.wellFormed.names_ne_nil
  rw [hchars, Declaration.ofText_intercalate (by simpa using hne) fun part hpart => ?_]
  · rw [List.zipIdx_map, List.filterMap_map, ← List.filterMap_eq_map]
    refine List.filterMap_congr fun q hq => ?_
    exact (hlegible q.1 (List.fst_mem_of_mem_zipIdx hq)).ofPiece?_eq q.2
  · obtain ⟨r, hr, rfl⟩ := List.mem_map.1 hpart
    exact (hlegible r hr).semicolon_not_mem

theorem Attainable.rulesOf_source :
    rulesOf (Declaration.ofText (g.source width multiline).toList) = g.rules := by
  have hfst := List.zipIdx_map_fst 1 g.rules
  rw [hg.ofText_toList_source hnames halternatives]
  have hlefts : ((g.rules.zipIdx 1).map fun q => (RuleText.ofRule q.1).reread (width q.1.name)
      (multiline q.1.name) q.2).map Declaration.left = g.names := by
    rw [List.map_map, names]
    conv_rhs => rw [← hfst, List.map_map]
    rfl
  rw [rulesOf_of_nodup (hlefts ▸ hg.wellFormed.nodup), hlefts, List.map_map]
  conv_rhs => rw [← hfst]
  refine List.map_congr_left fun q hq => ?_
  have hr := List.fst_mem_of_mem_zipIdx hq
  have hread := hg.alternatives_reread hnames hr (halternatives q.1 hr) (width q.1.name)
    (multiline q.1.name) q.2
  simp only [Function.comp_apply, hread]
  rfl

end Source

/-- A grammar is read back from its rules, whatever their layout. Its nonterminals must be named
with name characters only, and it must not have an alternative without symbols. -/
theorem ofText_source (hg : g.Attainable)
    (hnames : ∀ name ∈ g.names, ∀ c ∈ name.toList, Lexeme.isNameChar c)
    (halternatives : ∀ r ∈ g.rules, [] ∉ r.alternatives) (width : String → Nat)
    (multiline : String → Bool) :
    ∃ h, ofText (g.source width multiline) = .ok h ∧ g.same h := by
  have hrules := hg.rulesOf_source hnames halternatives width multiline
  have hmarker : ∀ d ∈ Declaration.ofText (g.source width multiline).toList,
      d.usesEndMarker = false := by
    rw [hg.ofText_toList_source hnames halternatives]
    intro d hd
    obtain ⟨q, hq, rfl⟩ := List.mem_map.1 hd
    have hr := List.fst_mem_of_mem_zipIdx hq
    exact hg.usesEndMarker_reread hnames hr (halternatives q.1 hr) ..
  exact ⟨_, ofText_eq_of_rulesOf hg.spelled hg.wellFormed.start hmarker hrules, by simp [same]⟩

/-- A grammar after both changes, with new names of which one has a number, with a lexeme that is no
name and with a nonterminal that has no alternatives. -/
theorem ofText_source_of_text :
    let g : Grammar :=
      { rules := [⟨"S", [[.nonterminal "S", .terminal "a"], [.terminal "b", .terminal "c"],
            [.terminal "b", .terminal "d"], [.epsilon]]⟩,
          ⟨"S'", [[.terminal ",", .nonterminal "T"]]⟩, ⟨"T", []⟩]
        start := "S" }
    let changed := g.eliminateLeftRecursion.leftFactor
    let text := changed.source (fun _ => 4) (· == "S")
    ofText "S -> S a | b c | b d | ε; S' -> , T; T ->" = .ok g ∧
      text = "   S -> b S'2\n      | S'1; S'2 -> c S'1 | d S'1; S'1 -> a S'1 | ε;  S' -> , T;   T ->"
      ∧ ∃ h, ofText text = .ok h ∧ changed.same h := by
  intro g changed text
  have hg : ofText "S -> S a | b c | b d | ε; S' -> , T; T ->" = .ok g := rfl
  have hrules : changed.rules =
      [⟨"S", [[.terminal "b", .nonterminal "S'2"], [.nonterminal "S'1"]]⟩,
        ⟨"S'2", [[.terminal "c", .nonterminal "S'1"], [.terminal "d", .nonterminal "S'1"]]⟩,
        ⟨"S'1", [[.terminal "a", .nonterminal "S'1"], [.epsilon]]⟩,
        ⟨"S'", [[.terminal ",", .nonterminal "T"]]⟩, ⟨"T", []⟩] := by
    simp only [changed, g]
    cbv
  have hnames : ∀ name ∈ changed.names, ∀ c ∈ name.toList, Lexeme.isNameChar c := by
    have hall : changed.names.all fun name => name.toList.all Lexeme.isNameChar := by
      rw [names, hrules]
      decide +kernel
    simpa using hall
  have halternatives : ∀ r ∈ changed.rules, [] ∉ r.alternatives := by
    rw [hrules]
    decide
  refine ⟨hg, ?_, ofText_source (.leftFactor (.eliminateLeftRecursion (.ofText hg))) hnames
    halternatives (fun _ => 4) (· == "S")⟩
  simp only [text, source, ruleTexts, hrules]
  rfl

end Grammar

end PredictiveParsing
