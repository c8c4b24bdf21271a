import Mathlib.Data.List.SplitBy
import PredictiveParsing.Grammar.Lexeme

/-!
# A word is cut into its runs

The work on a word is described by the characters that it has behind it. Some of them are done:
they are cut, and the part at hand begins at the offset after them. The others are the run at hand,
all of one class. A character of another class ends the run at hand, and any other goes on with it.

## Main statements

* `Lexeme.slice_append`: offsets between characters take out what is between them.
* `Lexeme.Cut.Behind.next`: what one more character does.
* `Lexeme.Cut.Behind.foldl`: what all characters that are left do.
* `Lexeme.splitWord_eq_splitBy`: the parts of a word are those between two changes of the class.
-/

namespace PredictiveParsing.Lexeme

variable {word done run rest : List Char} {c : Char}

/-! ## Byte offsets -/

@[simp] theorem byteLength_append (cs ds : List Char) :
    byteLength (cs ++ ds) = byteLength cs + byteLength ds := by
  induction cs with
  | nil => simp [byteLength]
  | cons c cs ih => simp [byteLength, ih, Nat.add_assoc]

theorem byteLength_pos (h : run ≠ []) : 0 < byteLength run := by
  obtain ⟨c, cs, rfl⟩ := List.exists_cons_of_ne_nil h
  have := c.utf8Size_pos
  rw [byteLength]
  omega

theorem charIndices_append (i : Nat) (cs ds : List Char) :
    charIndices i (cs ++ ds) = charIndices i cs ++ charIndices (i + byteLength cs) ds := by
  induction cs generalizing i with
  | nil => rfl
  | cons c cs ih =>
    have hoffset : i + c.utf8Size + byteLength cs = i + byteLength (c :: cs) := by
      simp [byteLength, Nat.add_assoc]
    rw [List.cons_append, charIndices, ih, hoffset]
    rfl

theorem bounds_of_mem_charIndices {i : Nat} {cs : List Char} {p : Nat × Char}
    (hp : p ∈ charIndices i cs) : i ≤ p.1 ∧ p.1 < i + byteLength cs := by
  induction cs generalizing i with
  | nil => simp [charIndices] at hp
  | cons c cs ih =>
    have hpos := c.utf8Size_pos
    rw [byteLength]
    rcases List.mem_cons.1 hp with rfl | hp
    · simp only
      omega
    · have := ih hp
      omega

theorem map_snd_charIndices (i : Nat) (cs : List Char) :
    (charIndices i cs).map Prod.snd = cs := by
  induction cs generalizing i with
  | nil => rfl
  | cons c cs ih => simp [charIndices, ih]

section Slices

variable {i start stop : Nat} {cs : List Char}

theorem filter_charIndices_outside (h : i + byteLength cs ≤ start ∨ stop ≤ i) :
    (charIndices i cs).filter (fun p => start ≤ p.1 && p.1 < stop) = [] := by
  refine List.filter_eq_nil_iff.2 fun p hp => ?_
  have := bounds_of_mem_charIndices hp
  simp only [Bool.and_eq_true, decide_eq_true_iff]
  omega

theorem filter_charIndices_inside (hstart : start ≤ i) (hstop : i + byteLength cs ≤ stop) :
    (charIndices i cs).filter (fun p => start ≤ p.1 && p.1 < stop) = charIndices i cs := by
  refine List.filter_eq_self.2 fun p hp => ?_
  have := bounds_of_mem_charIndices hp
  simp only [Bool.and_eq_true, decide_eq_true_iff]
  omega

/-- Offsets between characters take out what is between them. -/
theorem slice_append (done run rest : List Char) :
    slice (done ++ (run ++ rest)) (byteLength done) (byteLength (done ++ run)) = run := by
  rw [slice, charIndices_append, charIndices_append, Nat.zero_add, byteLength_append,
    List.filter_append, List.filter_append,
    filter_charIndices_outside (.inl (Nat.zero_add _).le),
    filter_charIndices_inside le_rfl le_rfl, filter_charIndices_outside (.inr le_rfl),
    List.nil_append, List.append_nil, map_snd_charIndices]

end Slices

/-! ## The characters behind -/

/-- Whether two characters are of the same class. -/
def sameClass (c d : Char) : Bool := isNameChar c == isNameChar d

/-- The state of the work when the characters `done` are cut and those of `run` are at hand. -/
structure Cut.Behind (done run : List Char) (cut : Cut) : Prop where
  start : cut.start = byteLength done
  previous : cut.previous = run.getLast?.map isNameChar
  pieces : cut.pieces = done.splitBy sameClass
  /-- The run at hand is of one class. -/
  chain : run.IsChain fun c d => sameClass c d
  /-- The class changes where the run begins. -/
  seam : ∀ c ∈ done.getLast?, ∀ d ∈ run.head?, sameClass c d = false
  done_eq_nil : run = [] → done = []

theorem Cut.Behind.begin : Behind [] [] {} :=
  ⟨rfl, rfl, rfl, .nil, by simp, fun _ => rfl⟩

theorem Cut.Behind.splitBy_append {cut : Cut} (h : cut.Behind done run) (hne : run ≠ []) :
    (done ++ run).splitBy sameClass = cut.pieces ++ [run] := by
  rw [List.splitBy_append h.seam, List.splitBy_of_isChain hne h.chain, h.pieces]

/-- A character of another class ends the run at hand, and any other goes on with it. -/
theorem Cut.Behind.next {cut : Cut} (h : cut.Behind done run)
    (hword : word = done ++ (run ++ c :: rest)) :
    (cut.next word (byteLength (done ++ run), c)).Behind (done ++ run) [c] ∨
      (cut.next word (byteLength (done ++ run), c)).Behind done (run ++ [c]) := by
  by_cases hchange : ∃ d ∈ run.getLast?, sameClass d c = false
  · left
    obtain ⟨d, hd, hclass⟩ := hchange
    have hne : run ≠ [] := List.ne_nil_of_mem (List.mem_of_mem_getLast? hd)
    have hcond : cut.previous.any (· != isNameChar c) = true := by
      rw [h.previous, Option.mem_def.1 hd]
      simpa [sameClass] using hclass
    rw [Cut.next, if_pos hcond]
    refine ⟨rfl, rfl, ?_, .singleton c, ?_, by simp⟩
    · rw [h.splitBy_append hne, hword, h.start, slice_append]
    · intro d' hd' c' hc'
      rw [List.getLast?_append_of_ne_nil _ hne] at hd'
      obtain rfl := Option.mem_unique hd hd'
      obtain rfl : c = c' := by simpa using hc'
      exact hclass
  · right
    push Not at hchange
    have hcond : cut.previous.any (· != isNameChar c) = false := by
      rw [h.previous]
      cases hlast : run.getLast? with
      | none => rfl
      | some d => simpa [sameClass] using hchange d hlast
    rw [Cut.next, if_neg (by simp [hcond])]
    refine ⟨h.start, by simp, h.pieces, ?_, ?_, by simp⟩
    · refine List.isChain_append.2 ⟨h.chain, .singleton c, fun d hd c' hc' => ?_⟩
      obtain rfl : c = c' := by simpa using hc'
      simpa using hchange d hd
    · rcases eq_or_ne run [] with rfl | hne
      · simp [h.done_eq_nil rfl]
      · rw [List.head?_append_of_ne_nil _ hne]
        exact h.seam

/-- The characters that are left bring the work to its end. -/
theorem Cut.Behind.foldl {cut : Cut} (h : cut.Behind done run)
    (hword : word = done ++ (run ++ rest)) :
    ∃ done' run', word = done' ++ run' ∧
      ((charIndices (byteLength (done ++ run)) rest).foldl (Cut.next word) cut).Behind
        done' run' := by
  induction rest generalizing done run cut with
  | nil => exact ⟨done, run, by simpa using hword, h⟩
  | cons c rest ih =>
    have hoffset (cs : List Char) : byteLength cs + c.utf8Size = byteLength (cs ++ [c]) := by
      simp [byteLength]
    rw [charIndices, List.foldl_cons, hoffset]
    rcases h.next hword with hnext | hnext
    · exact ih hnext (by simpa using hword)
    · rw [List.append_assoc]
      exact ih hnext (by simpa using hword)

/-- The parts of a word are those between two changes of the class. -/
theorem splitWord_eq_splitBy (word : List Char) : splitWord word = word.splitBy sameClass := by
  have hall : word = [] ++ ([] ++ word) := rfl
  obtain ⟨done, run, hword, h⟩ := Cut.Behind.begin.foldl hall
  replace h : ((charIndices 0 word).foldl (Cut.next word) {}).Behind done run := h
  rw [splitWord, h.start]
  rcases eq_or_ne run [] with rfl | hne
  · obtain rfl := h.done_eq_nil rfl
    simpa [hword, byteLength] using h.pieces
  · have hlt : byteLength done < byteLength word := by
      have := byteLength_pos hne
      rw [hword, byteLength_append]
      omega
    have hslice := slice_append done run []
    rw [List.append_nil, ← hword] at hslice
    rw [if_pos hlt, hslice, ← h.splitBy_append hne, ← hword]

end PredictiveParsing.Lexeme
