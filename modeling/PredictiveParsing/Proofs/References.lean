import PredictiveParsing.Proofs.Notation

/-!
# References to nonterminals

What stands before the arrow of a declaration is taken as it is, so long as it is one word. A word
on a right side is cut up further, and a lone prime or a spelling of the empty word is never a name.
So there are nonterminals that no right side can refer to. All other names can be referred to: where
such a name stands as a word, it is one token.

## Main definitions

* `Referable`: how a name is spelled that right sides can refer to.
* `Delimited`: a word between two parts of a text stands on its own.

## Main statements

* `Notation.references_ofText`: words that are referable names are read as these nonterminals, and
  no other nonterminals are read.
-/

namespace PredictiveParsing

open Text

/-- How a name is spelled that right sides can refer to. -/
structure Referable (name : String) : Prop where
  /-- All characters belong to names, or none of them does. -/
  run : (∀ c ∈ name.toList, Lexeme.isNameChar c) ∨ ∀ c ∈ name.toList, Lexeme.isNameChar c = false
  ne_prime : name ≠ "'"
  not_bar : '|' ∉ name.toList
  not_epsilon : ¬ SpellsEpsilon name

/-- A word between two parts of a text stands on its own: there is a blank or a bar on either side
of it, or an end of the text. -/
structure Delimited (before after : List Char) : Prop where
  before : ∀ c ∈ before.getLast?, isBlank c ∨ c = '|'
  after : ∀ c ∈ after.head?, isBlank c ∨ c = '|'

variable {cs ds before after : List Char} {name : String}

/-! ## Spelling -/

theorem isChain_isNameChar_iff :
    (cs.IsChain fun c d => Lexeme.isNameChar c == Lexeme.isNameChar d) ↔
      (∀ c ∈ cs, Lexeme.isNameChar c) ∨ ∀ c ∈ cs, Lexeme.isNameChar c = false := by
  have : IsTrans Char fun c d => Lexeme.isNameChar c == Lexeme.isNameChar d :=
    ⟨fun _ _ _ h h' => by simp_all⟩
  rw [List.isChain_iff_pairwise]
  constructor
  · intro h
    cases cs with
    | nil => exact .inl (by simp)
    | cons c cs =>
      have hsame := (List.pairwise_cons.1 h).1
      cases hc : Lexeme.isNameChar c <;> simp_all
  · rintro (h | h) <;>
      exact List.pairwise_of_forall_mem_list fun c hc d hd => by simp [h c hc, h d hd]

/-- A lexeme that does not spell the empty word is referable. -/
theorem IsLexeme.referable (h : IsLexeme name.toList) (hepsilon : ¬ SpellsEpsilon name) :
    Referable name where
  run := isChain_isNameChar_iff.1 h.run
  ne_prime := by
    rintro rfl
    exact h.ne_prime rfl
  not_bar := h.not_bar
  not_epsilon := hepsilon

/-- A referable name that is a word of a right side is a lexeme. -/
theorem Referable.isLexeme (h : Referable name) (hword : IsWord name.toList)
    (hsemicolon : ';' ∉ name.toList) (harrow : Unarrowed name.toList) : IsLexeme name.toList where
  word := hword
  run := isChain_isNameChar_iff.2 h.run
  ne_prime := fun heq => h.ne_prime (String.toList_inj.1 heq)
  not_bar := h.not_bar
  not_semicolon := hsemicolon
  unarrowed := harrow

/-! ## Parts that are read independently -/

namespace Lexeme

theorem lexemes_append_of_getLast? (h : ∀ c ∈ cs.getLast?, isBlank c) (ds : List Char) :
    lexemes (cs ++ ds) = lexemes cs ++ lexemes ds := by
  have hwords : words (cs ++ ds) = words cs ++ words ds := by
    rcases List.eq_nil_or_concat' cs with rfl | ⟨cs, c, rfl⟩
    · rfl
    · have hc : isBlank c := h c (by simp)
      rw [List.append_assoc, List.singleton_append, words_append cs hc, words_append cs hc]
      simp [words, pieces]
  simp only [lexemes, hwords, List.flatMap_append, List.filter_append]

theorem lexemes_append_of_head? (cs : List Char) (h : ∀ c ∈ ds.head?, isBlank c) :
    lexemes (cs ++ ds) = lexemes cs ++ lexemes ds := by
  have hwords : words (cs ++ ds) = words cs ++ words ds := by
    cases ds with
    | nil => simp [words, pieces]
    | cons d ds =>
      have hd : isBlank d := h d rfl
      have hfirst : words (d :: ds) = words ds := words_append [] hd ds
      rw [words_append cs hd, hfirst]
  simp only [lexemes, hwords, List.flatMap_append, List.filter_append]

theorem lexemes_of_isLexeme (h : IsLexeme cs) : lexemes cs = [cs] := by
  simpa [List.intercalate_singleton] using lexemes_intercalate (List.forall_mem_singleton.2 h)

end Lexeme

namespace Notation

open Declaration Grammar

theorem alternatives_of_not_mem (h : '|' ∉ cs) :
    alternatives cs = [(Lexeme.lexemes cs).map String.ofList] := by
  rw [alternatives_eq, alternativeLexemes_of_not_mem h]

/-- What comes behind the last bar of a text goes on with what is put behind it. -/
theorem exists_last_part (before : List Char) :
    ∃ earlier part, '|' ∉ part ∧ part <:+ before ∧
      ∀ rest, alternatives (before ++ rest) = earlier ++ alternatives (part ++ rest) := by
  by_cases hbar : '|' ∈ before
  · obtain ⟨as, bs, heq, has⟩ := List.eq_append_cons_of_mem (List.mem_reverse.2 hbar)
    obtain rfl : before = bs.reverse ++ '|' :: as.reverse := by
      rw [← List.reverse_reverse before, heq]
      simp
    refine ⟨alternatives bs.reverse, as.reverse, by simpa using has,
      (List.suffix_cons _ _).trans (List.suffix_append ..), fun rest => ?_⟩
    rw [List.append_assoc, List.cons_append, alternatives_append]
  · exact ⟨[], before, hbar, List.suffix_rfl, fun _ => rfl⟩

/-- What comes before the first bar of a text goes on with what is put in front of it. -/
theorem exists_first_part (after : List Char) :
    ∃ part later, '|' ∉ part ∧ part <+: after ∧
      ∀ lead, alternatives (lead ++ after) = alternatives (lead ++ part) ++ later := by
  by_cases hbar : '|' ∈ after
  · obtain ⟨as, bs, rfl, has⟩ := List.eq_append_cons_of_mem hbar
    refine ⟨as, alternatives bs, has, List.prefix_append .., fun lead => ?_⟩
    rw [← List.append_assoc, alternatives_append]
  · exact ⟨after, [], hbar, List.prefix_rfl, fun _ => (List.append_nil _).symm⟩

/-- A name that stands on its own is one token, between those before it and those after it. -/
theorem alternatives_of_delimited (h : Delimited before after) (hname : IsLexeme name.toList) :
    ∃ earlier x y later, alternatives before = earlier ++ [x] ∧ alternatives after = y :: later ∧
      alternatives (before ++ (name.toList ++ after)) = earlier ++ (x ++ name :: y) :: later := by
  obtain ⟨earlier, last, hlast, hsuffix, hbefore⟩ := exists_last_part before
  obtain ⟨first, later, hfirst, hprefix, hafter⟩ := exists_first_part after
  -- There is no bar in the parts next to the word, so they end and begin with a blank.
  have hblank : ∀ c ∈ last.getLast?, isBlank c := fun c hc => by
    obtain ⟨lead, rfl⟩ := hsuffix
    refine (h.before c (by simp [Option.mem_def.1 hc])).resolve_right ?_
    rintro rfl
    exact hlast (List.mem_of_getLast? hc)
  have hblank' : ∀ c ∈ first.head?, isBlank c := fun c hc => by
    obtain ⟨rest, rfl⟩ := hprefix
    refine (h.after c (by simp [Option.mem_def.1 hc])).resolve_right ?_
    rintro rfl
    exact hfirst (List.mem_of_head? hc)
  refine ⟨earlier, (Lexeme.lexemes last).map String.ofList,
    (Lexeme.lexemes first).map String.ofList, later, ?_, ?_, ?_⟩
  · simpa [alternatives_of_not_mem hlast] using hbefore []
  · simpa [alternatives_of_not_mem hfirst] using hafter []
  · have hword : '|' ∉ last ++ (name.toList ++ first) := by simp [hlast, hname.not_bar, hfirst]
    rw [hbefore, ← List.append_assoc, hafter, List.append_assoc, alternatives_of_not_mem hword,
      Lexeme.lexemes_append_of_getLast? hblank, Lexeme.lexemes_append_of_head? _ hblank',
      Lexeme.lexemes_of_isLexeme hname]
    simp

/-- A declared name among other tokens stands for its nonterminal. -/
theorem ofLexemes_append_cons {declared : List String} (hname : name ∈ declared)
    (hepsilon : ¬ SpellsEpsilon name) (x y : List String) :
    Alternative.ofLexemes declared (x ++ name :: y)
      = eraseEpsilon (x.map (Symbol.ofLexeme declared)) ++
          .nonterminal name :: eraseEpsilon (y.map (Symbol.ofLexeme declared)) := by
  have hsymbol : Symbol.ofLexeme declared name = .nonterminal name := by
    unfold SpellsEpsilon at hepsilon
    simp [Symbol.ofLexeme, hepsilon, hname]
  simp only [Alternative.ofLexemes, List.map_append, List.map_cons, hsymbol]
  split
  · simp [eraseEpsilon]
  next hone =>
    obtain ⟨rfl, rfl⟩ : x = [] ∧ y = [] := by
      simp only [List.length_append, List.length_map, List.length_cons] at hone
      exact ⟨List.length_eq_zero_iff.1 (by omega), List.length_eq_zero_iff.1 (by omega)⟩
    rfl

section Texts

variable {text : String} {piece left right : List Char} {g : Grammar}

theorem mem_ofText_of_isDeclaration (hpiece : piece ∈ text.toList.splitOn ';')
    (h : IsDeclaration piece left right) :
    ∃ d ∈ Declaration.ofText text.toList, d.left = String.ofList left ∧
      d.right = alternatives right := by
  rw [← pieces_eq_splitOn, ← List.zipIdx_map_fst 1 (pieces _ _)] at hpiece
  obtain ⟨⟨_, number⟩, hmem, rfl⟩ := List.mem_map.1 hpiece
  exact ⟨_, List.mem_filterMap.2 ⟨_, hmem, h.ofPiece?_eq number⟩, rfl, rfl⟩

/-- A right side is not cut any further at semicolons and arrows. -/
theorem uncut_of_isDeclaration (hpiece : piece ∈ text.toList.splitOn ';')
    (h : IsDeclaration piece left right) : ';' ∉ right ∧ Unarrowed right := by
  obtain ⟨lead, hparts, -⟩ := isDeclaration_iff.1 h
  have hright : right ∈ arrowParts piece := by simp [hparts]
  have hwithin := (arePartsOf_arrowParts piece).isInfix hright
  rw [← pieces_eq_splitOn] at hpiece
  exact ⟨fun hc => by simpa using not_of_mem_pieces hpiece _ (hwithin.subset hc),
    unarrowed_of_mem_arrowParts hright⟩

/-- A nonterminal that is read on a right side has a referable name. -/
theorem referable_of_mem_occurrences (hg : Grammar.ofText text = .ok g)
    (h : .nonterminal name ∈ g.occurrences) : Referable name := by
  obtain ⟨r, hr, p, hp, hs⟩ := mem_occurrences.1 h
  obtain ⟨d, hd, lexemes, hlexemes, lexeme, hlexeme, hsymbol⟩ :=
    exists_lexeme_of_mem_rulesOf ((ofText_eq_ok hg).2.1 ▸ hr) hp hs
  obtain ⟨rfl, -⟩ := Symbol.ofLexeme_eq_nonterminal hsymbol
  refine (isLexeme_of_mem_ofText hd hlexemes hlexeme).referable fun hepsilon => ?_
  rw [Symbol.ofLexeme_eq_epsilon_iff.2 hepsilon] at hsymbol
  cases hsymbol

/-- Where a nonterminal with a referable name stands as a word of its own on a right side, it is
read as this nonterminal, between what is read before and after it. A nonterminal whose name is not
referable is in no alternative at all. -/
theorem references_ofText (hg : Grammar.ofText text = .ok g) :
    (∀ name, .nonterminal name ∈ g.occurrences → Referable name) ∧
    ∀ (piece left right before after : List Char) (name : String),
      piece ∈ text.toList.splitOn ';' → IsDeclaration piece left right → name ∈ g.names →
      Referable name → right = before ++ (name.toList ++ after) → Delimited before after →
      ∃ earlier x y later,
        alternatives before = earlier ++ [x] ∧ alternatives after = y :: later ∧
        alternatives right = earlier ++ (x ++ name :: y) :: later ∧
        eraseEpsilon (x.map (Symbol.ofLexeme g.names)) ++
            .nonterminal name :: eraseEpsilon (y.map (Symbol.ofLexeme g.names))
          ∈ g.alternatives (String.ofList left) := by
  refine ⟨fun name => referable_of_mem_occurrences hg, ?_⟩
  rintro piece left right before after name hpiece hdeclaration hname hreferable rfl hdelimited
  obtain ⟨d, hd, hleft, hright⟩ := mem_ofText_of_isDeclaration hpiece hdeclaration
  obtain ⟨hsemicolon, harrow⟩ := uncut_of_isDeclaration hpiece hdeclaration
  have hwithin : name.toList <:+: before ++ (name.toList ++ after) := ⟨before, after, by simp⟩
  have hisWord : IsWord name.toList := by
    obtain ⟨r, hr, rfl⟩ := mem_names.1 hname
    exact ((spelled_ofText hg).rules r hr).name
  have hlexeme := hreferable.isLexeme hisWord (fun hc => hsemicolon (hwithin.subset hc))
    (harrow.of_isInfix hwithin)
  obtain ⟨earlier, x, y, later, hbefore, hafter, hword⟩ :=
    alternatives_of_delimited hdelimited hlexeme
  refine ⟨earlier, x, y, later, hbefore, hafter, hword, ?_⟩
  rw [← ofLexemes_append_cons hname hreferable.not_epsilon,
    alternatives_of_rules_eq (ofText_eq_ok hg).2.1]
  refine List.mem_flatMap.2 ⟨d, by simp [hd, hleft], List.mem_map_of_mem ?_⟩
  simp [hright, hword]

end Texts

/-- Nonterminals that are a sign or a name. The sign stands between a blank and a bar. -/
theorem references_ofText_of_text :
    let g : Grammar :=
      { rules := [⟨"S", [[.nonterminal "A", .nonterminal "=="], [.nonterminal "A"]]⟩,
          ⟨"A", [[.terminal "a"]]⟩, ⟨"==", [[.terminal "=", .terminal "b"]]⟩]
        start := "S" }
    Grammar.ofText "S -> ε A ==|A; A -> a; == -> = b" = .ok g ∧ "==" ∈ g.names ∧
      IsDeclaration "S -> ε A ==|A".toList "S".toList " ε A ==|A".toList ∧ Referable "==" ∧
      Delimited " ε A ".toList "|A".toList ∧
      ∃ earlier x y later,
        alternatives " ε A ".toList = earlier ++ [x] ∧ alternatives "|A".toList = y :: later ∧
        alternatives " ε A ==|A".toList = earlier ++ (x ++ "==" :: y) :: later ∧
        eraseEpsilon (x.map (Symbol.ofLexeme g.names)) ++
            .nonterminal "==" :: eraseEpsilon (y.map (Symbol.ofLexeme g.names))
          ∈ g.alternatives "S" := by
  intro g
  have hg : Grammar.ofText "S -> ε A ==|A; A -> a; == -> = b" = .ok g := by
    set_option maxRecDepth 2000 in rfl
  have hname : "==" ∈ g.names := by decide
  have hdeclaration : IsDeclaration "S -> ε A ==|A".toList "S".toList " ε A ==|A".toList :=
    isDeclaration_iff.2 ⟨"S ".toList, by rfl, by rfl⟩
  have hsign : Lexeme.isNameChar '=' = false := by decide +kernel
  have hreferable : Referable "==" :=
    ⟨.inr (by simp [hsign]), by decide, by simp, by simp [SpellsEpsilon]⟩
  have hdelimited : Delimited " ε A ".toList "|A".toList := ⟨by simp [isBlank], by simp⟩
  obtain ⟨-, hread⟩ := references_ofText hg
  exact ⟨hg, hname, hdeclaration, hreferable, hdelimited,
    hread _ _ _ _ _ _ (by decide) hdeclaration hname hreferable rfl hdelimited⟩

/-- A text in which each of four nonterminals is a word on a right side, and none of them is read:
one is cut up where the characters change, one at a bar, one is a lone prime and one spells the
empty word. -/
theorem unread_references_of_text :
    let g : Grammar :=
      { rules := [⟨"S", [[.terminal "a", .terminal "-", .terminal "b", .terminal "x"],
            [.terminal "y"]]⟩,
          ⟨"a-b", [[.terminal "c"]]⟩, ⟨"x|y", [[.terminal "c"]]⟩, ⟨"'", [[.terminal "c"]]⟩,
          ⟨"epsilon", [[.terminal "c"]]⟩]
        start := "S" }
    Grammar.ofText "S -> a-b x|y ' epsilon; a-b -> c; x|y -> c; ' -> c; epsilon -> c" = .ok g ∧
      IsDeclaration "S -> a-b x|y ' epsilon".toList "S".toList " a-b x|y ' epsilon".toList ∧
      ∀ name ∈ ["a-b", "x|y", "'", "epsilon"],
        name ∈ g.names ∧ name.toList ∈ words " a-b x|y ' epsilon".toList ∧
          .nonterminal name ∉ g.occurrences := by
  intro g
  refine ⟨by set_option maxRecDepth 4000 in rfl, ?_, by decide⟩
  exact isDeclaration_iff.2 ⟨"S ".toList, by rfl, by rfl⟩

end Notation

end PredictiveParsing
