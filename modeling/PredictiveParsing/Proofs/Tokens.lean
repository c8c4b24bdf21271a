import PredictiveParsing.Proofs.Lexemes

/-!
# Tokens as maximal runs

The tokens of a right side can be told without cutting it at blanks first. Each character is blank,
belongs to names or is another sign, and the tokens are the maximal runs of characters of one kind
that are not blank. This gives the lexemes that the reader gets in two steps: a run that is not
blank ends where its word ends, or before, where the kind of the characters changes.

## Main definitions

* `Notation.kind`: the three kinds of characters.
* `Notation.tokens`: the tokens of a text.

## Main statements

* `Notation.lexemes_eq_tokens`: these are the lexemes that are read.
-/

namespace PredictiveParsing

/-! ## Runs -/

section Runs

variable {α : Type} {r r' : α → α → Bool} {xs : List α}

/-- Relations that agree on a list cut it at the same places. -/
theorem splitBy_congr (h : ∀ x ∈ xs, ∀ y ∈ xs, r x y = r' x y) :
    xs.splitBy r = xs.splitBy r' := by
  have hmem : ∀ {run}, run ∈ xs.splitBy r' → ∀ x ∈ run, x ∈ xs := by
    intro run hrun x hx
    rw [← List.flatten_splitBy r' xs]
    exact List.mem_flatten_of_mem hrun hx
  refine List.splitBy_eq_iff.2 ⟨(List.flatten_splitBy r' xs).symm, List.nil_notMem_splitBy r' xs,
    fun run hrun => ?_, ?_⟩
  · refine (List.isChain_of_mem_splitBy hrun).imp_of_mem_imp ?_
    intro x y hx hy hxy
    rwa [h x (hmem hrun x hx) y (hmem hrun y hy)]
  · refine (List.isChain_getLast_head_splitBy r' xs).imp_of_mem_imp ?_
    rintro run next hrun hnext ⟨hne, hne', hxy⟩
    refine ⟨hne, hne', ?_⟩
    rwa [h _ (hmem hrun _ (List.getLast_mem hne)) _ (hmem hnext _ (List.head_mem hne'))]

end Runs

namespace Notation

open Text Lexeme

variable {c : Char} {cs blanks text word first : List Char} {rest : List (List Char)}

/-! ## Kinds of characters -/

/-- A blank character has no kind. The others are told apart by whether they belong to names. -/
def kind (c : Char) : Option Bool := if isBlank c then none else some (isNameChar c)

/-- The maximal runs of one kind, without the blank ones. -/
def visibleRuns (text : List Char) : List (List Char) :=
  (text.splitBy fun c d => kind c == kind d).filter (!isBlankText ·)

/-- The tokens of a text in order. A prime that stands alone is not one. -/
def tokens (text : List Char) : List (List Char) := (visibleRuns text).filter (· != ['\''])

theorem kind_of_isBlank (h : isBlank c) : kind c = none := if_pos h

theorem kind_of_not_isBlank (h : isBlank c = false) : kind c = some (isNameChar c) := by
  simp [kind, h]

/-! ## Blanks -/

/-- A blank run in front of a text that begins with another character is a run of its own. -/
theorem visibleRuns_blank_append_of_head (h : isBlankText blanks)
    (hhead : ∀ c ∈ text.head?, isBlank c = false) :
    visibleRuns (blanks ++ text) = visibleRuns text := by
  rcases eq_or_ne blanks [] with rfl | hne
  · rfl
  have hblank : ∀ c ∈ blanks, isBlank c := List.all_eq_true.1 h
  have hseam : ∀ c ∈ blanks.getLast?, ∀ d ∈ text.head?, (kind c == kind d) = false := by
    intro c hc d hd
    rw [kind_of_isBlank (hblank c (List.mem_of_getLast? hc)), kind_of_not_isBlank (hhead d hd)]
    rfl
  have hrun : blanks.Pairwise fun c d => kind c == kind d :=
    List.pairwise_of_forall_mem_list fun c hc d hd => by
      simp [kind_of_isBlank (hblank c hc), kind_of_isBlank (hblank d hd)]
  rw [visibleRuns, List.splitBy_append hseam, List.splitBy_of_isChain hne hrun.isChain,
    List.filter_append]
  simp [h, visibleRuns]

/-- Blanks in front of a text do not matter. -/
theorem visibleRuns_blank_append (h : isBlankText blanks) (text : List Char) :
    visibleRuns (blanks ++ text) = visibleRuns text := by
  have hhead : ∀ c ∈ (text.dropWhile isBlank).head?, isBlank c = false := by
    intro c hc
    have hnot := List.head?_dropWhile_not isBlank text
    rwa [Option.mem_def.1 hc] at hnot
  have hlead : isBlankText (text.takeWhile isBlank) := List.all_takeWhile
  have hall : isBlankText (blanks ++ text.takeWhile isBlank) := by
    simp only [isBlankText, List.all_append, Bool.and_eq_true] at h hlead ⊢
    exact ⟨h, hlead⟩
  calc visibleRuns (blanks ++ text)
      = visibleRuns ((blanks ++ text.takeWhile isBlank) ++ text.dropWhile isBlank) := by
        rw [List.append_assoc, List.takeWhile_append_dropWhile]
    _ = visibleRuns (text.dropWhile isBlank) := visibleRuns_blank_append_of_head hall hhead
    _ = visibleRuns (text.takeWhile isBlank ++ text.dropWhile isBlank) :=
        (visibleRuns_blank_append_of_head hlead hhead).symm
    _ = visibleRuns text := by rw [List.takeWhile_append_dropWhile]

/-- A text without blanks has the runs of its only word. -/
theorem visibleRuns_of_forall (h : ∀ c ∈ cs, isBlank c = false) :
    visibleRuns cs = splitWord cs := by
  have hkind : ∀ c ∈ cs, ∀ d ∈ cs, (kind c == kind d) = (isNameChar c == isNameChar d) := by
    intro c hc d hd
    rw [kind_of_not_isBlank (h c hc), kind_of_not_isBlank (h d hd)]
    rfl
  rw [visibleRuns, splitBy_congr hkind, List.filter_eq_self.2]
  · exact (splitWord_eq_splitBy cs).symm
  · intro run hrun
    obtain ⟨c, hc⟩ := List.exists_mem_of_ne_nil run (List.ne_nil_of_mem_splitBy hrun)
    have hmem : c ∈ cs := by
      rw [← List.flatten_splitBy (fun c d => isNameChar c == isNameChar d) cs]
      exact List.mem_flatten_of_mem hrun hc
    have hnot : ¬ isBlankText run := fun hblank => not_mem_of_isBlankText hblank (h c hmem) hc
    simpa using hnot

/-! ## Lexemes -/

/-- The runs of a text with a part of a word in front are those of its pieces, the first of which
goes on with this part. -/
theorem visibleRuns_append (hcs : ∀ c ∈ cs, isBlank c = false)
    (hpieces : pieces isBlank text = first :: rest) :
    visibleRuns (cs ++ text) = ((cs ++ first) :: rest).flatMap splitWord := by
  induction text generalizing cs first rest with
  | nil =>
    obtain ⟨rfl, rfl⟩ := List.cons.inj hpieces
    simp [visibleRuns_of_forall hcs]
  | cons c text ih =>
    obtain ⟨next, others, hnext⟩ := List.exists_cons_of_ne_nil (pieces_ne_nil isBlank text)
    rw [pieces_cons, hnext] at hpieces
    cases hc : isBlank c with
    | true =>
      -- The word ends here.
      obtain ⟨rfl, rfl⟩ : first = [] ∧ rest = next :: others := by simp_all
      have hseam : ∀ d ∈ cs.getLast?, (kind d == kind c) = false := by
        intro d hd
        rw [kind_of_isBlank hc, kind_of_not_isBlank (hcs d (List.mem_of_getLast? hd))]
        rfl
      have hcut : visibleRuns (cs ++ c :: text) = visibleRuns cs ++ visibleRuns (c :: text) := by
        rw [visibleRuns, List.splitBy_append_cons text hseam, List.filter_append]
        rfl
      have hblank : isBlankText [c] := by simp [isBlankText, hc]
      have hrest := @ih [] next others (by simp) hnext
      rw [hcut, visibleRuns_of_forall hcs, List.append_nil, List.flatMap_cons]
      exact congrArg (splitWord cs ++ ·) ((visibleRuns_blank_append hblank text).trans hrest)
    | false =>
      obtain ⟨rfl, rfl⟩ : first = c :: next ∧ rest = others := by simp_all
      have hword : ∀ d ∈ cs ++ [c], isBlank d = false := by
        simp only [List.mem_append, List.mem_singleton]
        rintro d (hd | rfl)
        · exact hcs d hd
        · exact hc
      simpa using ih hword hnext

theorem flatMap_words (text : List Char) :
    (words text).flatMap splitWord = (pieces isBlank text).flatMap splitWord := by
  unfold words
  induction pieces isBlank text with
  | nil => rfl
  | cons part parts ih =>
    cases part with
    | nil => simpa [splitWord_eq_splitBy] using ih
    | cons => simp [ih]

/-- The lexemes that are read are the tokens of the text. -/
theorem lexemes_eq_tokens (text : List Char) : lexemes text = tokens text := by
  obtain ⟨first, rest, hpieces⟩ := List.exists_cons_of_ne_nil (pieces_ne_nil isBlank text)
  have hruns := @visibleRuns_append [] text first rest (by simp) hpieces
  rw [List.nil_append, List.nil_append, ← hpieces] at hruns
  rw [lexemes, flatMap_words, ← hruns, tokens]

end Notation

end PredictiveParsing
