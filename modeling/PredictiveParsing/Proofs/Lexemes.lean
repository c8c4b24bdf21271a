import PredictiveParsing.Grammar.Declaration
import PredictiveParsing.Proofs.Runs

/-!
# Words and lexemes of a text

A text is cut at separators, at blanks and at arrows, and what lies between two cuts stands in the
text as it is. So a lexeme of a text is free of all that the text is cut at on the way to it. The
other way round, parts that are free of the places to cut at can be joined by them, and cutting
gives the parts back.

## Main definitions

* `IsWord`: a list of characters without blanks that is not empty.
* `Unarrowed`: a text without an arrow.
* `IsLexeme`: what is read as one lexeme where it stands between blanks on a right side.

## Main statements

* `Text.pieces_intercalate`: the pieces of parts that are joined by a separator.
* `Declaration.isLexeme_of_mem_ofText`: all that is read on a right side is a lexeme.
* `Declaration.arrowParts_append`: the two sides of the only arrow.
* `Lexeme.lexemes_intercalate`: lexemes with a space between are read as they are.
-/

namespace PredictiveParsing

open Text

/-! ## Parts of a list -/

section Parts

variable {α : Type} {p : α → Bool} {x : α} {xs part : List α} {parts : List (List α)}

/-- The first of the parts begins the list, and each of the others stands somewhere in it. -/
def ArePartsOf (parts : List (List α)) (xs : List α) : Prop :=
  ∃ first rest, parts = first :: rest ∧ first <+: xs ∧ ∀ part ∈ rest, part <:+: xs

namespace ArePartsOf

theorem nil : ArePartsOf [[]] ([] : List α) := ⟨[], [], rfl, List.prefix_rfl, by simp⟩

/-- Another element in front goes to the first part. -/
theorem cons (h : ArePartsOf parts xs) (x : α) :
    ArePartsOf (parts.modifyHead (x :: ·)) (x :: xs) := by
  obtain ⟨first, rest, rfl, hfirst, hrest⟩ := h
  exact ⟨x :: first, rest, rfl, List.cons_prefix_cons.2 ⟨rfl, hfirst⟩, fun part hpart =>
    List.infix_cons (hrest part hpart)⟩

/-- The list may be cut at what is put in front of it. -/
theorem cut (h : ArePartsOf parts xs) (separator : List α) :
    ArePartsOf ([] :: parts) (separator ++ xs) := by
  obtain ⟨first, rest, rfl, hfirst, hrest⟩ := h
  have hwithin : xs <:+: separator ++ xs := (List.suffix_append ..).isInfix
  refine ⟨[], first :: rest, rfl, List.nil_prefix, fun part hpart => ?_⟩
  rcases List.mem_cons.1 hpart with rfl | hpart
  · exact hfirst.isInfix.trans hwithin
  · exact (hrest part hpart).trans hwithin

theorem isInfix (h : ArePartsOf parts xs) (hpart : part ∈ parts) : part <:+: xs := by
  obtain ⟨first, rest, rfl, hfirst, hrest⟩ := h
  rcases List.mem_cons.1 hpart with rfl | hpart
  · exact hfirst.isInfix
  · exact hrest part hpart

end ArePartsOf

namespace Text

theorem pieces_cons (p : α → Bool) (x : α) (xs : List α) :
    pieces p (x :: xs) = if p x then [] :: pieces p xs else (pieces p xs).modifyHead (x :: ·) := rfl

theorem arePartsOf_pieces (p : α → Bool) (xs : List α) : ArePartsOf (pieces p xs) xs := by
  induction xs with
  | nil => exact .nil
  | cons x xs ih =>
    rw [pieces_cons]
    split
    · exact ih.cut [x]
    · exact ih.cons x

theorem pieces_ne_nil (p : α → Bool) (xs : List α) : pieces p xs ≠ [] := by
  obtain ⟨first, rest, hpieces, -⟩ := arePartsOf_pieces p xs
  simp [hpieces]

/-- No piece holds an element at which the list is cut. -/
theorem not_of_mem_pieces (h : part ∈ pieces p xs) : ∀ x ∈ part, p x = false := by
  induction xs generalizing part with
  | nil => grind [pieces]
  | cons y xs ih =>
    rw [pieces_cons] at h
    split at h
    · rcases List.mem_cons.1 h with rfl | h
      · simp
      · exact ih h
    next hy =>
      obtain ⟨first, rest, hfirst⟩ := List.exists_cons_of_ne_nil (pieces_ne_nil p xs)
      rw [hfirst] at h ih
      rcases List.mem_cons.1 h with rfl | h
      · intro x hx
        rcases List.mem_cons.1 hx with rfl | hx
        · simpa using hy
        · exact ih List.mem_cons_self x hx
      · exact ih (List.mem_cons_of_mem _ h)

theorem pieces_eq_singleton (h : ∀ x ∈ xs, p x = false) : pieces p xs = [xs] := by
  induction xs with
  | nil => rfl
  | cons x xs ih =>
    rw [pieces_cons, ih fun y hy => h y (List.mem_cons_of_mem _ hy)]
    simp [h x]

theorem pieces_append (xs : List α) (hx : p x) (ys : List α) :
    pieces p (xs ++ x :: ys) = pieces p xs ++ pieces p ys := by
  induction xs with
  | nil => simp [hx, pieces]
  | cons y xs ih =>
    rw [List.cons_append, pieces_cons, pieces_cons, ih]
    split
    · rfl
    · obtain ⟨first, rest, hfirst⟩ := List.exists_cons_of_ne_nil (pieces_ne_nil p xs)
      simp [hfirst]

/-- The pieces of parts that are joined by a separator. -/
theorem pieces_intercalate (hx : p x) (hne : parts ≠ []) :
    pieces p ([x].intercalate parts) = parts.flatMap (pieces p) := by
  induction parts with
  | nil => exact absurd rfl hne
  | cons part parts ih =>
    cases parts with
    | nil => simp [List.intercalate]
    | cons next parts =>
      rw [List.intercalate_cons_cons, List.append_assoc, List.singleton_append,
        pieces_append part hx, ih (List.cons_ne_nil _ _)]
      rfl

theorem not_mem_intercalate {separator : List α} (hseparator : x ∉ separator)
    (hparts : ∀ part ∈ parts, x ∉ part) : x ∉ separator.intercalate parts := by
  induction parts with
  | nil => simp [List.intercalate]
  | cons part parts ih =>
    have hpart := hparts part List.mem_cons_self
    have hrest := ih fun next hnext => hparts next (List.mem_cons_of_mem _ hnext)
    cases parts with
    | nil => rwa [List.intercalate_singleton]
    | cons next parts => simp [List.intercalate_cons_cons, hpart, hseparator, hrest]

end Text

end Parts

/-! ## Words -/

/-- A list of characters without blanks that is not empty. -/
def IsWord (cs : List Char) : Prop := cs ≠ [] ∧ ∀ c ∈ cs, isBlank c = false

section Words

variable {c : Char} {cs ds word : List Char}

theorem Text.isWord_of_mem_words (h : word ∈ words cs) : IsWord word := by
  obtain ⟨hpiece, hne⟩ := List.mem_filter.1 h
  exact ⟨by simpa using hne, not_of_mem_pieces hpiece⟩

theorem IsWord.words_eq (h : IsWord word) : words word = [word] := by
  simp [words, pieces_eq_singleton h.2, h.1]

theorem Text.words_append (cs : List Char) (hc : isBlank c) (ds : List Char) :
    words (cs ++ c :: ds) = words cs ++ words ds := by
  simp [words, pieces_append cs hc]

theorem Text.not_mem_of_isBlankText (h : isBlankText cs) (hc : isBlank c = false) : c ∉ cs :=
  fun hmem => by simp [List.all_eq_true.1 h c hmem] at hc

/-- Blanks in front of a text do not matter. -/
theorem Text.words_blank_append (h : isBlankText cs) (ds : List Char) :
    words (cs ++ ds) = words ds := by
  induction cs with
  | nil => rfl
  | cons c cs ih =>
    simp only [isBlankText, List.all_cons, Bool.and_eq_true] at h ih
    rw [List.cons_append, ← ih h.2]
    exact words_append [] h.1 _

/-- Blanks behind a text do not matter. -/
theorem Text.words_append_blank (cs : List Char) (h : isBlankText ds) :
    words (cs ++ ds) = words cs := by
  cases ds with
  | nil => rw [List.append_nil]
  | cons d ds =>
    simp only [isBlankText, List.all_cons, Bool.and_eq_true] at h
    rw [words_append cs h.1, ← List.append_nil ds, words_blank_append h.2]
    exact List.append_nil _

end Words

/-! ## Arrows -/

/-- A text without an arrow: no hyphen has an angle bracket right behind it. -/
def Unarrowed (cs : List Char) : Prop := cs.IsChain fun c d => ¬ (c = '-' ∧ d = '>')

section Arrows

open Declaration

variable {c : Char} {cs ds left right between part : List Char} {parts : List (List Char)}

theorem arePartsOf_arrowParts (cs : List Char) : ArePartsOf (arrowParts cs) cs := by
  fun_induction arrowParts cs with
  | case1 => exact .nil
  | case2 cs ih => exact ih.cut ['-', '>']
  | case3 c cs _ ih => exact ih.cons c

theorem unarrowed_of_mem_arrowParts (h : part ∈ arrowParts cs) : Unarrowed part := by
  fun_induction arrowParts cs generalizing part with
  | case1 => simp_all [Unarrowed]
  | case2 cs ih =>
    rcases List.mem_cons.1 h with rfl | h
    · exact .nil
    · exact ih h
  | case3 c cs hnot ih =>
    -- The first part begins the rest of the text, where no `>` stands at the head if `c` is `-`.
    obtain ⟨first, rest, hparts, ⟨after, rfl⟩, -⟩ := arePartsOf_arrowParts cs
    rw [hparts] at h ih
    rcases List.mem_cons.1 h with rfl | h
    · refine List.isChain_cons.2 ⟨fun d hd => ?_, ih List.mem_cons_self⟩
      rintro ⟨rfl, rfl⟩
      obtain ⟨more, rfl⟩ := List.head?_eq_some_iff.1 hd
      exact hnot _ rfl rfl
    · exact ih (List.mem_cons_of_mem _ h)

theorem Unarrowed.of_isInfix (h : Unarrowed cs) (hpart : part <:+: cs) : Unarrowed part := by
  obtain ⟨before, after, rfl⟩ := hpart
  exact h.left_of_append.right_of_append

theorem Unarrowed.arrowParts_eq (h : Unarrowed cs) : arrowParts cs = [cs] := by
  fun_induction arrowParts cs with
  | case1 => rfl
  | case2 cs => simp [Unarrowed] at h
  | case3 c cs _ ih => simp [ih h.tail]

theorem Unarrowed.of_not_mem (h : '-' ∉ cs) : Unarrowed cs := by
  have hpairs : cs.Pairwise fun c d => ¬ (c = '-' ∧ d = '>') :=
    List.pairwise_of_forall_mem_list fun _ hc _ _ hpair => h (hpair.1 ▸ hc)
  exact hpairs.isChain

/-- The two sides of the only arrow. -/
theorem Declaration.arrowParts_append (hleft : Unarrowed left) (hright : Unarrowed right) :
    arrowParts (left ++ '-' :: '>' :: right) = [left, right] := by
  induction left with
  | nil => simp [arrowParts, hright.arrowParts_eq]
  | cons c left ih =>
    have hnot : ∀ cs, c = '-' → left ++ '-' :: '>' :: right ≠ '>' :: cs := by
      rintro cs rfl hcs
      cases left with
      | nil => simp at hcs
      | cons d left =>
        obtain ⟨rfl, -⟩ := List.cons.inj hcs
        simp [Unarrowed] at hleft
    have hcut : arrowParts (c :: (left ++ '-' :: '>' :: right))
        = (arrowParts (left ++ '-' :: '>' :: right)).modifyHead (c :: ·) := by
      rw [arrowParts]
      grind
    rw [List.cons_append, hcut, ih hleft.tail]
    rfl

/-- Texts without arrows can be joined by one that has no part of an arrow. -/
theorem Unarrowed.append (hcs : Unarrowed cs) (hds : Unarrowed ds) (hne : between ≠ [])
    (hbetween : ∀ c ∈ between, c ≠ '-' ∧ c ≠ '>') : Unarrowed (cs ++ (between ++ ds)) := by
  have hpairs : between.Pairwise fun c d => ¬ (c = '-' ∧ d = '>') :=
    List.pairwise_of_forall_mem_list fun c hc _ _ h => (hbetween c hc).1 h.1
  have hplain : Unarrowed between := hpairs.isChain
  refine List.isChain_append.2 ⟨hcs, List.isChain_append.2 ⟨hplain, hds, ?_⟩, ?_⟩
  · exact fun c hc _ _ h => (hbetween c (List.mem_of_getLast? hc)).1 h.1
  · intro c _ d hd h
    rw [List.head?_append_of_ne_nil _ hne] at hd
    exact (hbetween d (List.mem_of_head? hd)).2 h.2

theorem Unarrowed.intercalate (hparts : ∀ part ∈ parts, Unarrowed part) (hne : between ≠ [])
    (hbetween : ∀ c ∈ between, c ≠ '-' ∧ c ≠ '>') : Unarrowed (between.intercalate parts) := by
  induction parts with
  | nil => exact .nil
  | cons part parts ih =>
    have hpart := hparts part List.mem_cons_self
    have hrest := ih fun next hnext => hparts next (List.mem_cons_of_mem _ hnext)
    cases parts with
    | nil => simpa [List.intercalate_singleton] using hpart
    | cons next parts =>
      rw [List.intercalate_cons_cons, List.append_assoc]
      exact hpart.append hrest hne hbetween

end Arrows

/-! ## Lexemes -/

/-- What is read as one lexeme where it stands between blanks on a right side: a word of name
characters only or of others only, without anything at which a text of declarations is cut. A prime
that stands alone is not read. -/
structure IsLexeme (cs : List Char) : Prop where
  word : IsWord cs
  run : cs.IsChain fun c d => Lexeme.isNameChar c == Lexeme.isNameChar d
  ne_prime : cs ≠ ['\'']
  not_bar : '|' ∉ cs
  not_semicolon : ';' ∉ cs
  unarrowed : Unarrowed cs

namespace Lexeme

variable {cs word lexeme : List Char} {lexemes : List (List Char)}

/-- What a text of declarations is cut at, and the end marker, are no characters of names. -/
theorem isNameChar_separators : isNameChar '-' = false ∧ isNameChar '|' = false ∧
    isNameChar ';' = false ∧ isNameChar '$' = false := by
  decide +kernel

/-- A word of name characters is a lexeme unless it is a lone prime. -/
theorem isLexeme_of_isNameChar (h : IsWord cs) (hname : ∀ c ∈ cs, isNameChar c)
    (hprime : cs ≠ ['\'']) : IsLexeme cs := by
  obtain ⟨hhyphen, hbar, hsemicolon, -⟩ := isNameChar_separators
  have hnot : ∀ {c}, isNameChar c = false → c ∉ cs := fun hc hmem => by
    simp [hname _ hmem] at hc
  have hrun : cs.Pairwise fun c d => isNameChar c == isNameChar d :=
    List.pairwise_of_forall_mem_list fun c hc d hd => by simp [hname c hc, hname d hd]
  have harrow : cs.Pairwise fun c d => ¬ (c = '-' ∧ d = '>') :=
    List.pairwise_of_forall_mem_list fun c hc _ _ h => hnot hhyphen (h.1 ▸ hc)
  exact ⟨h, hrun.isChain, hprime, hnot hbar, hnot hsemicolon, harrow.isChain⟩

theorem isInfix_of_mem_splitWord (h : lexeme ∈ splitWord word) : lexeme <:+: word := by
  rw [splitWord_eq_splitBy] at h
  rw [← List.flatten_splitBy (fun c d => isNameChar c == isNameChar d) word]
  exact List.infix_of_mem_flatten h

/-- What is read from a text that is cut at bars, semicolons and arrows. -/
theorem isLexeme_of_mem_lexemes (h : lexeme ∈ Lexeme.lexemes cs) (hbar : '|' ∉ cs)
    (hsemicolon : ';' ∉ cs) (hcs : Unarrowed cs) : IsLexeme lexeme := by
  obtain ⟨hmem, hprime⟩ := List.mem_filter.1 h
  obtain ⟨word, hword, hsplit⟩ := List.mem_flatMap.1 hmem
  have hwithin := isInfix_of_mem_splitWord hsplit
  rw [splitWord_eq_splitBy] at hsplit
  have hpart := hwithin.trans
    ((arePartsOf_pieces isBlank cs).isInfix (List.mem_of_mem_filter hword))
  exact
    { word := ⟨List.ne_nil_of_mem_splitBy hsplit, fun c hc =>
        (isWord_of_mem_words hword).2 c (hwithin.subset hc)⟩
      run := List.isChain_of_mem_splitBy hsplit
      ne_prime := by simpa using hprime
      not_bar := fun hc => hbar (hpart.subset hc)
      not_semicolon := fun hc => hsemicolon (hpart.subset hc)
      unarrowed := hcs.of_isInfix hpart }

theorem lexemes_blank_append (h : isBlankText cs) (ds : List Char) :
    Lexeme.lexemes (cs ++ ds) = Lexeme.lexemes ds := by
  rw [Lexeme.lexemes, words_blank_append h, Lexeme.lexemes]

theorem lexemes_append_blank {ds : List Char} (h : isBlankText ds) :
    Lexeme.lexemes (cs ++ ds) = Lexeme.lexemes cs := by
  rw [Lexeme.lexemes, words_append_blank cs h, Lexeme.lexemes]

/-- Lexemes with a space between are read as they are. -/
theorem lexemes_intercalate (h : ∀ lexeme ∈ lexemes, IsLexeme lexeme) :
    Lexeme.lexemes ([' '].intercalate lexemes) = lexemes := by
  have hwords : words ([' '].intercalate lexemes) = lexemes.flatMap words := by
    cases lexemes with
    | nil => rfl
    | cons =>
      rw [words, pieces_intercalate (by decide) (List.cons_ne_nil _ _), List.filter_flatMap]
      rfl
  have hone : ∀ lexeme ∈ lexemes, (words lexeme).flatMap splitWord = [lexeme] := by
    intro lexeme hlexeme
    have hlexeme := h lexeme hlexeme
    have hrun : lexeme.splitBy sameClass = [lexeme] :=
      List.splitBy_of_isChain hlexeme.word.1 hlexeme.run
    simp [hlexeme.word.words_eq, splitWord_eq_splitBy, hrun]
  rw [Lexeme.lexemes, hwords, List.flatMap_assoc, List.flatMap_congr hone, List.flatMap_singleton',
    List.filter_eq_self]
  exact fun lexeme hlexeme => by simpa using (h lexeme hlexeme).ne_prime

end Lexeme

/-! ## Declarations -/

namespace Declaration

variable {cs lead before after : List Char} {parts : List (List Char)}

/-- A declaration has one word before its arrow, and its right side is not cut any further. -/
theorem exists_sides_of_mem_ofText {text : List Char} {d : Declaration}
    (hd : d ∈ Declaration.ofText text) :
    ∃ left right, words left = [d.left.toList] ∧ d.right = alternativeLexemes right ∧
      ';' ∉ right ∧ Unarrowed right := by
  obtain ⟨⟨piece, number⟩, hmem, hpiece⟩ := List.mem_filterMap.1 hd
  have hsemicolon := not_of_mem_pieces (List.fst_mem_of_mem_zipIdx hmem)
  unfold ofPiece? at hpiece
  split at hpiece
  next left right hparts =>
    have hright : right ∈ arrowParts piece := by simp [hparts]
    have hwithin := (arePartsOf_arrowParts piece).isInfix hright
    split at hpiece
    next name hwords =>
      obtain rfl := Option.some.inj hpiece
      refine ⟨left, right, by simpa using hwords, rfl, fun hc => ?_,
        unarrowed_of_mem_arrowParts hright⟩
      simpa using hsemicolon _ (hwithin.subset hc)
    next => cases hpiece
  next => cases hpiece

theorem isWord_left_of_mem_ofText {text : List Char} {d : Declaration}
    (hd : d ∈ Declaration.ofText text) : IsWord d.left.toList := by
  obtain ⟨left, -, hwords, -⟩ := exists_sides_of_mem_ofText hd
  exact isWord_of_mem_words (hwords ▸ List.mem_singleton_self _)

/-- All that is read on a right side is a lexeme. -/
theorem isLexeme_of_mem_ofText {text : List Char} {d : Declaration}
    (hd : d ∈ Declaration.ofText text) {lexemes : List String} (hlexemes : lexemes ∈ d.right)
    {lexeme : String} (h : lexeme ∈ lexemes) : IsLexeme lexeme.toList := by
  obtain ⟨-, right, -, hright, hsemicolon, harrow⟩ := exists_sides_of_mem_ofText hd
  obtain ⟨alternative, halternative, rfl⟩ := List.mem_map.1 (hright ▸ hlexemes)
  obtain ⟨cs, hcs, rfl⟩ := List.mem_map.1 h
  have hpart := (arePartsOf_pieces _ right).isInfix halternative
  have hbar : '|' ∉ alternative := fun hc => by simpa using not_of_mem_pieces halternative _ hc
  rw [String.toList_ofList]
  exact Lexeme.isLexeme_of_mem_lexemes hcs hbar (fun hc => hsemicolon (hpart.subset hc))
    (harrow.of_isInfix hpart)

theorem alternativeLexemes_of_not_mem (h : '|' ∉ cs) :
    alternativeLexemes cs = [(Lexeme.lexemes cs).map String.ofList] := by
  have hnone : ∀ c ∈ cs, (c == '|') = false := fun c hc =>
    beq_eq_false_iff_ne.2 (ne_of_mem_of_not_mem hc h)
  simp [alternativeLexemes, pieces_eq_singleton hnone]

theorem alternativeLexemes_append (cs ds : List Char) :
    alternativeLexemes (cs ++ '|' :: ds) = alternativeLexemes cs ++ alternativeLexemes ds := by
  rw [alternativeLexemes, pieces_append (p := (· == '|')) cs (beq_self_eq_true '|'),
    List.map_append]
  rfl

/-- The alternatives of a right side in which they are joined by bars among blanks. -/
theorem alternativeLexemes_intercalate (hbefore : isBlankText before) (hafter : isBlankText after)
    (hlead : isBlankText lead) (hne : parts ≠ []) (hparts : ∀ part ∈ parts, '|' ∉ part) :
    alternativeLexemes (lead ++ (before ++ '|' :: after).intercalate parts)
      = parts.map fun part => (Lexeme.lexemes part).map String.ofList := by
  have hbar : isBlank '|' = false := by decide
  induction parts generalizing lead with
  | nil => exact absurd rfl hne
  | cons part parts ih =>
    have hpart := hparts part List.mem_cons_self
    have hlead' := not_mem_of_isBlankText hlead hbar
    cases parts with
    | nil =>
      rw [List.intercalate_singleton, alternativeLexemes_of_not_mem (by simp [hlead', hpart]),
        Lexeme.lexemes_blank_append hlead]
      rfl
    | cons next parts =>
      have hbefore' := not_mem_of_isBlankText hbefore hbar
      have hrest := ih hafter (List.cons_ne_nil _ _) fun p hp =>
        hparts p (List.mem_cons_of_mem _ hp)
      rw [List.intercalate_cons_cons,
        show lead ++ (part ++ (before ++ '|' :: after)
            ++ (before ++ '|' :: after).intercalate (next :: parts))
          = (lead ++ (part ++ before)) ++ '|' :: (after
            ++ (before ++ '|' :: after).intercalate (next :: parts)) by simp,
        alternativeLexemes_append, hrest,
        alternativeLexemes_of_not_mem (by simp [hlead', hpart, hbefore']),
        Lexeme.lexemes_blank_append hlead, Lexeme.lexemes_append_blank hbefore]
      rfl

/-- A piece with one word before its only arrow is a declaration. -/
theorem ofPiece?_eq {left right : List Char} (number : Nat) (hlead : isBlankText lead)
    (hleft : IsWord left) (hyphen : '-' ∉ left) (hright : Unarrowed right) :
    ofPiece? number (lead ++ left ++ ' ' :: '-' :: '>' :: right)
      = some ⟨number, String.ofList left, alternativeLexemes right⟩ := by
  have hparts : arrowParts (lead ++ left ++ ' ' :: '-' :: '>' :: right)
      = [lead ++ left ++ [' '], right] := by
    have hlead' := not_mem_of_isBlankText hlead (c := '-') (by decide)
    have hnone : '-' ∉ lead ++ left ++ [' '] := by simp [hlead', hyphen]
    simpa using arrowParts_append (.of_not_mem hnone) hright
  have hwords : words (lead ++ left ++ [' ']) = [left] := by
    rw [words_append_blank _ (by decide), words_blank_append hlead, hleft.words_eq]
  simp only [ofPiece?, hparts, hwords]

/-- The declarations of texts that are joined by semicolons. -/
theorem ofText_intercalate (hne : parts ≠ []) (hparts : ∀ part ∈ parts, ';' ∉ part) :
    Declaration.ofText ([';'].intercalate parts)
      = (parts.zipIdx 1).filterMap fun p => ofPiece? p.2 p.1 := by
  have hone : ∀ part ∈ parts, pieces (· == ';') part = [part] := fun part hpart =>
    pieces_eq_singleton fun c hc =>
      beq_eq_false_iff_ne.2 (ne_of_mem_of_not_mem hc (hparts part hpart))
  rw [Declaration.ofText, pieces_intercalate (p := (· == ';')) (beq_self_eq_true ';') hne,
    List.flatMap_congr hone, List.flatMap_singleton']

end Declaration

end PredictiveParsing
