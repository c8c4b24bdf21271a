import PredictiveParsing.Proofs.Tokens

/-!
# Declarations of a text

Which pieces of a text are declarations is told here without the functions of the reader. A piece is
a declaration if it has exactly one arrow and one word before it, and any other piece is skipped.
The alternatives are the parts between bars, taken as their tokens. The reader finds the same
declarations: it cuts a piece at all arrows, and there are two parts just if one arrow is the only
one.

## Main definitions

* `Notation.IsDeclaration`: a piece is a declaration, with its two sides.
* `Notation.Reads`: the declarations among some pieces, with the numbers of their pieces.

## Main statements

* `Notation.arrowParts_eq_pair_iff`, `Notation.words_eq_singleton_iff`: when a piece is cut in two,
  and when a text is one word.
* `Notation.reads_iff`: the reader finds the declarations.
-/

namespace PredictiveParsing

namespace Notation

open Text Declaration

/-! ## Declarations -/

/-- A piece of a text is a declaration: it has exactly one arrow, before which stands one word among
blanks. -/
structure IsDeclaration (piece left right : List Char) : Prop where
  word : IsWord left
  sides : ∃ before after, isBlankText before ∧ isBlankText after ∧
    piece = before ++ left ++ after ++ '-' :: '>' :: right
  once : ∀ before after, piece = before ++ '-' :: '>' :: after → after = right

/-- The tokens of each alternative of a right side. -/
def alternatives (right : List Char) : List (List String) :=
  (right.splitOn '|').map fun alternative => (tokens alternative).map String.ofList

/-- The declarations among some pieces, of which the first has this number. The other pieces are
skipped, but they are counted. -/
inductive Reads : Nat → List (List Char) → List Declaration → Prop
  | nil {number : Nat} : Reads number [] []
  | declaration {number : Nat} {piece left right : List Char} {pieces : List (List Char)}
      {ds : List Declaration} (h : IsDeclaration piece left right)
      (hrest : Reads (number + 1) pieces ds) :
      Reads number (piece :: pieces) (⟨number, String.ofList left, alternatives right⟩ :: ds)
  | skip {number : Nat} {piece : List Char} {pieces : List (List Char)} {ds : List Declaration}
      (h : ∀ left right, ¬ IsDeclaration piece left right)
      (hrest : Reads (number + 1) pieces ds) : Reads number (piece :: pieces) ds

/-! ## What the reader finds -/

variable {piece left right cs word lead : List Char} {number : Nat} {d : Declaration}
  {ps : List (List Char)} {ds : List Declaration}

theorem pieces_eq_splitOn {α : Type} [BEq α] (x : α) (xs : List α) :
    pieces (· == x) xs = xs.splitOn x := by
  unfold List.splitOn
  induction xs with
  | nil => simp [pieces]
  | cons y xs ih => rw [pieces_cons, ih, List.splitOnP_cons_eq_if_modifyHead]

theorem unarrowed_iff : Unarrowed cs ↔ ∀ before after, cs ≠ before ++ '-' :: '>' :: after := by
  rw [Unarrowed, List.isChain_iff_forall_rel_of_append_cons_cons]
  exact ⟨fun h before after heq => h heq ⟨rfl, rfl⟩,
    fun h c d before after heq hcd => h before after (by rw [heq, hcd.1, hcd.2])⟩

/-- An arrow is the only one if there is none on either side of it. -/
theorem once_iff :
    (∀ before after, lead ++ '-' :: '>' :: right = before ++ '-' :: '>' :: after → after = right)
      ↔ Unarrowed lead ∧ Unarrowed right := by
  simp only [unarrowed_iff]
  constructor
  · refine fun h => ⟨fun before after heq => ?_, fun before after heq => ?_⟩
    · have hlength := congrArg List.length
        (h before (after ++ '-' :: '>' :: right) (by simp [heq]))
      simp only [List.length_append, List.length_cons] at hlength
      omega
    · have hlength := congrArg List.length
        (h (lead ++ '-' :: '>' :: before) after (by simp [heq]))
      rw [heq] at hlength
      simp only [List.length_append, List.length_cons] at hlength
      omega
  · rintro ⟨hlead, hright⟩ before after heq
    -- Two arrows cannot overlap, so the other one would be on one side.
    rcases List.append_eq_append_iff.1 heq with ⟨between, rfl, hsplit⟩ | ⟨between, rfl, hsplit⟩
    · match between with
      | [] => simpa using hsplit.symm
      | [_] => simp at hsplit
      | _ :: _ :: between =>
        obtain ⟨rfl, rfl, rfl⟩ : _ ∧ _ ∧ _ := by simpa using hsplit
        exact absurd rfl (hright between after)
    · match between with
      | [] => simpa using hsplit
      | [_] => simp at hsplit
      | _ :: _ :: between =>
        obtain ⟨rfl, rfl, -⟩ : _ ∧ _ ∧ _ := by simpa using hsplit
        exact absurd rfl (hlead before between)

theorem intercalate_arrowParts (cs : List Char) : ['-', '>'].intercalate (arrowParts cs) = cs := by
  fun_induction arrowParts cs with
  | case1 => rfl
  | case2 cs ih =>
    obtain ⟨first, rest, hparts, -⟩ := arePartsOf_arrowParts cs
    rw [hparts] at ih ⊢
    rw [List.intercalate_cons_cons, ih]
    rfl
  | case3 c cs _ ih =>
    obtain ⟨first, rest, hparts, -⟩ := arePartsOf_arrowParts cs
    rw [hparts] at ih ⊢
    cases rest with
    | nil => simpa using ih
    | cons next rest => simpa [List.intercalate_cons_cons] using ih

/-- A piece has two sides if it has one arrow. -/
theorem arrowParts_eq_pair_iff :
    arrowParts piece = [lead, right] ↔
      piece = lead ++ '-' :: '>' :: right ∧ Unarrowed lead ∧ Unarrowed right := by
  constructor
  · intro h
    have hjoin := intercalate_arrowParts piece
    rw [h, List.intercalate_cons_cons, List.intercalate_singleton] at hjoin
    have hside : ∀ {side}, side ∈ [lead, right] → Unarrowed side := fun hmem =>
      unarrowed_of_mem_arrowParts (h ▸ hmem)
    exact ⟨by simpa using hjoin.symm, hside (by simp), hside (by simp)⟩
  · rintro ⟨rfl, hlead, hright⟩
    exact arrowParts_append hlead hright

theorem words_eq_nil_iff : words cs = [] ↔ isBlankText cs := by
  induction cs with
  | nil => simp [words, pieces, isBlankText]
  | cons c cs ih =>
    cases hc : isBlank c with
    | true =>
      have hblank : isBlankText [c] := by simp [isBlankText, hc]
      have hwords : words (c :: cs) = words cs := words_blank_append hblank cs
      rw [hwords, ih]
      simp [isBlankText, hc]
    | false =>
      obtain ⟨first, rest, hpieces⟩ := List.exists_cons_of_ne_nil (pieces_ne_nil isBlank cs)
      simp [words, pieces_cons, hpieces, hc, isBlankText]

/-- A text that is not blank begins, behind its first blanks, with a word up to the next blank. -/
theorem exists_first_word (h : ¬ isBlankText cs) :
    ∃ before word tail, cs = before ++ (word ++ tail) ∧ isBlankText before ∧ IsWord word ∧
      ∀ c ∈ tail.head?, isBlank c := by
  induction cs with
  | nil => simp [isBlankText] at h
  | cons c cs ih =>
    cases hc : isBlank c with
    | true =>
      have hrest : ¬ isBlankText cs := by simpa [isBlankText, hc] using h
      obtain ⟨before, word, tail, rfl, hbefore, hword, htail⟩ := ih hrest
      exact ⟨c :: before, word, tail, rfl, by simpa [isBlankText, hc] using hbefore, hword, htail⟩
    | false =>
      refine ⟨[], (c :: cs).takeWhile (!isBlank ·), (c :: cs).dropWhile (!isBlank ·),
        List.takeWhile_append_dropWhile.symm, rfl, ⟨by simp [hc], fun d hd => ?_⟩, fun d hd => ?_⟩
      · simpa using List.all_eq_true.1 List.all_takeWhile d hd
      · have hnot := List.head?_dropWhile_not (!isBlank ·) (c :: cs)
        rw [Option.mem_def.1 hd] at hnot
        simpa using hnot

/-- A text has one word if it consists of this word among blanks. -/
theorem words_eq_singleton_iff :
    words cs = [word] ↔ IsWord word ∧ ∃ before after, isBlankText before ∧ isBlankText after ∧
      cs = before ++ word ++ after := by
  constructor
  · intro h
    have hnot : ¬ isBlankText cs := fun hblank => by simp [words_eq_nil_iff.2 hblank] at h
    obtain ⟨before, first, tail, rfl, hbefore, hfirst, htail⟩ := exists_first_word hnot
    rw [words_blank_append hbefore] at h
    cases tail with
    | nil =>
      rw [List.append_nil, hfirst.words_eq] at h
      obtain rfl := List.singleton_inj.1 h
      exact ⟨hfirst, before, [], hbefore, rfl, by simp⟩
    | cons d tail =>
      have hd := htail d rfl
      rw [words_append first hd, hfirst.words_eq] at h
      obtain ⟨rfl, hnone⟩ := List.cons.inj h
      refine ⟨hfirst, before, d :: tail, hbefore, ?_, by simp⟩
      simpa [isBlankText, hd] using words_eq_nil_iff.1 hnone
  · rintro ⟨hword, before, after, hbefore, hafter, rfl⟩
    rw [words_append_blank _ hafter, words_blank_append hbefore, hword.words_eq]

theorem isDeclaration_iff :
    IsDeclaration piece left right ↔
      ∃ lead, arrowParts piece = [lead, right] ∧ words lead = [left] := by
  simp only [arrowParts_eq_pair_iff, words_eq_singleton_iff]
  constructor
  · rintro ⟨hword, ⟨before, after, hbefore, hafter, rfl⟩, honce⟩
    exact ⟨_, ⟨rfl, once_iff.1 honce⟩, hword, before, after, hbefore, hafter, rfl⟩
  · rintro ⟨lead, ⟨rfl, honce⟩, hword, before, after, hbefore, hafter, rfl⟩
    exact ⟨hword, ⟨before, after, hbefore, hafter, rfl⟩, once_iff.2 honce⟩

theorem alternatives_eq (right : List Char) : alternatives right = alternativeLexemes right := by
  rw [alternatives, alternativeLexemes, ← pieces_eq_splitOn]
  exact List.map_congr_left fun part _ => by rw [lexemes_eq_tokens]

/-- The reader finds a declaration in a piece if it is one. -/
theorem ofPiece?_eq_some_iff :
    ofPiece? number piece = some d ↔ ∃ left right, IsDeclaration piece left right ∧
      d = ⟨number, String.ofList left, alternatives right⟩ := by
  simp only [isDeclaration_iff, alternatives_eq]
  unfold ofPiece?
  constructor
  · intro h
    split at h
    next lead right hparts =>
      split at h
      next left hwords =>
        exact ⟨left, right, ⟨lead, hparts, hwords⟩, (Option.some.inj h).symm⟩
      next => cases h
    next => cases h
  · rintro ⟨left, right, ⟨lead, hparts, hwords⟩, rfl⟩
    simp only [hparts, hwords]

theorem IsDeclaration.ofPiece?_eq (h : IsDeclaration piece left right) (number : Nat) :
    ofPiece? number piece = some ⟨number, String.ofList left, alternatives right⟩ :=
  ofPiece?_eq_some_iff.2 ⟨left, right, h, rfl⟩

theorem ofPiece?_eq_none_iff :
    ofPiece? number piece = none ↔ ∀ left right, ¬ IsDeclaration piece left right := by
  constructor
  · intro h left right hpiece
    simp [hpiece.ofPiece?_eq number] at h
  · intro h
    cases hpiece : ofPiece? number piece with
    | none => rfl
    | some d =>
      obtain ⟨left, right, hdeclaration, -⟩ := ofPiece?_eq_some_iff.1 hpiece
      exact absurd hdeclaration (h left right)

theorem filterMap_zipIdx_cons (number : Nat) (piece : List Char) (ps : List (List Char)) :
    ((piece :: ps).zipIdx number).filterMap (fun p => ofPiece? p.2 p.1)
      = (ofPiece? number piece).toList
        ++ (ps.zipIdx (number + 1)).filterMap fun p => ofPiece? p.2 p.1 := by
  rw [List.zipIdx_cons, List.filterMap_cons]
  cases ofPiece? number piece <;> rfl

/-- The reader finds the declarations. -/
theorem reads_iff :
    Reads number ps ds ↔ ds = (ps.zipIdx number).filterMap fun p => ofPiece? p.2 p.1 := by
  constructor
  · intro h
    induction h with
    | nil => rfl
    | declaration h _ ih => rw [filterMap_zipIdx_cons, h.ofPiece?_eq, ← ih]; rfl
    | skip h _ ih => rw [filterMap_zipIdx_cons, ofPiece?_eq_none_iff.2 h, ← ih]; rfl
  · rintro rfl
    induction ps generalizing number with
    | nil => exact .nil
    | cons piece ps ih =>
      rw [filterMap_zipIdx_cons]
      cases hpiece : ofPiece? number piece with
      | none => exact .skip (ofPiece?_eq_none_iff.1 hpiece) ih
      | some d =>
        obtain ⟨left, right, h, rfl⟩ := ofPiece?_eq_some_iff.1 hpiece
        exact .declaration h ih

theorem reads_ofText {text : List Char} :
    Reads 1 (text.splitOn ';') ds ↔ ds = Declaration.ofText text := by
  rw [reads_iff, Declaration.ofText, pieces_eq_splitOn]

/-! ## Right sides -/

theorem alternatives_ne_nil (right : List Char) : alternatives right ≠ [] := by
  rw [alternatives, ← pieces_eq_splitOn]
  exact mt List.map_eq_nil_iff.1 (pieces_ne_nil _ _)

theorem alternatives_append (x y : List Char) :
    alternatives (x ++ '|' :: y) = alternatives x ++ alternatives y := by
  simp only [alternatives_eq, alternativeLexemes_append]

/-- A part of the right side behind the same left side makes a declaration as well. -/
theorem IsDeclaration.of_isInfix {part : List Char}
    (h : IsDeclaration (lead ++ '-' :: '>' :: right) left right) (hpart : part <:+: right) :
    IsDeclaration (lead ++ '-' :: '>' :: part) left part := by
  obtain ⟨hlead, hright⟩ := once_iff.1 h.once
  obtain ⟨before, after, hbefore, hafter, hpiece⟩ := h.sides
  exact ⟨h.word, ⟨before, after, hbefore, hafter, by rw [List.append_cancel_right hpiece]⟩,
    once_iff.2 ⟨hlead, hright.of_isInfix hpart⟩⟩

end Notation

end PredictiveParsing
