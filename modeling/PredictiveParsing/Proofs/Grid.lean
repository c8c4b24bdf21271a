import Mathlib.Algebra.GroupWithZero.Nat
import PredictiveParsing.Proofs.Cells
import PredictiveParsing.Proofs.Spelling

/-!
# Tables as grids

In a written table all lines are ruled alike: each entry is padded to the width of its column, which
is that of its widest entry, so the bars between the columns come at the same offsets in every line.
It is these offsets that tell where an entry ends, as a bar may also be part of a name. What is left
of a field without its padding is the entry, since no entry begins with a space. The lines can be
told apart, since no name has a line break in it.

## Main definitions

* `Text.Ruled`: lines with bars at the same offsets.
* `Text.entriesAt`: the entries of a line, by the offsets of its bars.
* `Table.entryText`: a cell as plain text.

## Main statements

* `Text.ruled_alignColumns`: aligned columns are ruled, and their entries can be read off again.
* `Table.plain_ruled`: the written form of a table is a grid of its entries.
-/

namespace PredictiveParsing

namespace Text

/-! ## Lines cut at bars -/

/-- What stands between two columns. -/
def columnBar : List Char := [' ', '|', ' ']

/-- The offsets of the bars between columns of the given widths, the first of which begins at
`start`. -/
def barOffsets (start : Nat) : List Nat → List Nat
  | [] => []
  | [_] => []
  | w :: w' :: ws => (start + w) :: barOffsets (start + w + 3) (w' :: ws)

/-- The parts of a line from `start` on between the bars at the given offsets. -/
def fieldsFrom (start : Nat) : List Nat → List Char → List (List Char)
  | [], line => [line.drop start]
  | o :: offsets, line => (line.take o).drop start :: fieldsFrom (o + 3) offsets line

/-- The entries of a line with bars at the given offsets: its fields without the padding in front of
them. -/
def entriesAt (offsets : List Nat) (line : List Char) : List (List Char) :=
  (fieldsFrom 0 offsets line).map (·.dropWhile (· == ' '))

/-- Lines of the same width, with bars at the same offsets in each of them. -/
structure Ruled (offsets : List Nat) (width : Nat) (lines : List (List Char)) : Prop where
  length : ∀ line ∈ lines, line.length = width
  bars : ∀ line ∈ lines, ∀ o ∈ offsets, (line.drop o).take 3 = columnBar
  /-- Each bar ends before the next one begins. -/
  apart : offsets.Pairwise (· + 3 ≤ ·)

section Bars

variable {cells : List (List Char)}

theorem length_barOffsets (start : Nat) (ws : List Nat) :
    (barOffsets start ws).length = ws.length - 1 := by
  fun_induction barOffsets start ws with
  | case1 => rfl
  | case2 => rfl
  | case3 start w w' ws ih => simp [ih]

theorem pairwise_barOffsets (start : Nat) (ws : List Nat) :
    (∀ o ∈ barOffsets start ws, start ≤ o) ∧ (barOffsets start ws).Pairwise (· + 3 ≤ ·) := by
  fun_induction barOffsets start ws with
  | case1 => simp
  | case2 => simp
  | case3 start w w' ws ih =>
    refine ⟨fun o ho => ?_, List.pairwise_cons.2 ⟨ih.1, ih.2⟩⟩
    rcases List.mem_cons.1 ho with rfl | ho
    · omega
    · have := ih.1 o ho
      omega

theorem length_intercalate_columnBar (cells : List (List Char)) :
    (columnBar.intercalate cells).length
      = (cells.map List.length).sum + 3 * (cells.length - 1) := by
  induction cells with
  | nil => rfl
  | cons cell cells ih =>
    cases cells with
    | nil => simp [List.intercalate_singleton]
    | cons next cells =>
      rw [List.intercalate_cons_cons, List.length_append, List.length_append, ih]
      simp only [columnBar, List.map_cons, List.sum_cons, List.length_cons, List.length_nil]
      omega

/-- The offsets of the bars are those that the widths of the cells give. What comes `before` the
cells is there for the induction. -/
theorem fieldsFrom_intercalate (hne : cells ≠ []) (before : List Char) :
    fieldsFrom before.length (barOffsets before.length (cells.map List.length))
        (before ++ columnBar.intercalate cells) = cells ∧
      ∀ o ∈ barOffsets before.length (cells.map List.length),
        ((before ++ columnBar.intercalate cells).drop o).take 3 = columnBar := by
  induction cells generalizing before with
  | nil => exact absurd rfl hne
  | cons cell cells ih =>
    cases cells with
    | nil => simp [barOffsets, fieldsFrom, List.intercalate_singleton]
    | cons next cells =>
      obtain ⟨hfields, hbars⟩ := ih (List.cons_ne_nil _ _) (before ++ cell ++ columnBar)
      have hlength : (before ++ cell ++ columnBar).length = before.length + cell.length + 3 := by
        simp [columnBar, Nat.add_assoc]
      have hline : before ++ columnBar.intercalate (cell :: next :: cells)
          = before ++ cell ++ columnBar ++ columnBar.intercalate (next :: cells) := by
        rw [List.intercalate_cons_cons]
        simp only [List.append_assoc]
      rw [hlength] at hfields hbars
      rw [hline]
      refine ⟨?_, fun o ho => ?_⟩
      · have hfirst : (before ++ cell ++ columnBar ++ columnBar.intercalate (next :: cells)).take
            (before.length + cell.length) = before ++ cell := by
          rw [List.append_assoc, ← List.length_append, List.take_left]
        simp only [List.map_cons, barOffsets, fieldsFrom, hfirst, List.drop_left] at hfields ⊢
        rw [hfields]
      · rcases List.mem_cons.1 ho with rfl | ho
        · rw [List.append_assoc, ← List.length_append, List.drop_left]
          exact List.take_left' rfl
        · exact hbars o ho

end Bars

/-! ## Widths -/

section Widths

variable {widths wider narrower acc : List Nat} {lines : List (List String)} {line : List String}

/-- Columns of some widths are wide enough for texts of the given lengths. -/
def Fit (widths lengths : List Nat) : Prop := List.Forall₂ (fun w n => n ≤ w) widths lengths

theorem Fit.refl (widths : List Nat) : Fit widths widths :=
  List.forall₂_same.2 fun _ _ => le_rfl

theorem Fit.trans (h : Fit wider widths) (h' : Fit widths narrower) : Fit wider narrower := by
  induction h generalizing narrower with
  | nil => exact h'
  | cons hle _ ih =>
    cases h' with
    | cons hle' hrest => exact .cons (hle'.trans hle) (ih hrest)

theorem fit_zipWith_max (h : widths.length = acc.length) :
    Fit (widths.zipWith max acc) widths ∧ Fit (widths.zipWith max acc) acc := by
  induction widths generalizing acc with
  | nil =>
    obtain rfl := List.length_eq_zero_iff.1 h.symm
    exact ⟨.nil, .nil⟩
  | cons w widths ih =>
    obtain ⟨n, acc, rfl⟩ := List.exists_cons_of_length_eq_add_one h.symm
    obtain ⟨hleft, hright⟩ := ih (Nat.succ_inj.1 h)
    exact ⟨.cons (le_max_left w n) hleft, .cons (le_max_right w n) hright⟩

theorem fit_foldl_max (hlines : ∀ line ∈ lines, line.length = acc.length) :
    let widths := lines.foldl (fun widths line => widths.zipWith max (line.map String.length)) acc
    Fit widths acc ∧ ∀ line ∈ lines, Fit widths (line.map String.length) := by
  induction lines generalizing acc with
  | nil => exact ⟨.refl acc, by simp⟩
  | cons line lines ih =>
    have hline : acc.length = (line.map String.length).length := by
      rw [List.length_map, hlines line List.mem_cons_self]
    obtain ⟨hacc, hfirst⟩ := fit_zipWith_max hline
    have hlines' : ∀ next ∈ lines,
        next.length = (acc.zipWith max (line.map String.length)).length := fun next hnext => by
      rw [List.length_zipWith, ← hline, Nat.min_self]
      exact hlines next (List.mem_cons_of_mem _ hnext)
    obtain ⟨hmax, hrest⟩ := ih hlines'
    refine ⟨hmax.trans hacc, fun next hnext => ?_⟩
    rcases List.mem_cons.1 hnext with rfl | hnext
    · exact hmax.trans hfirst
    · exact hrest next hnext

/-- Every line fits into the columns if all have the same number of entries. -/
theorem fit_columnWidths {n : Nat} (hlines : ∀ line ∈ lines, line.length = n)
    (hline : line ∈ lines) : Fit (columnWidths lines) (line.map String.length) := by
  cases lines with
  | nil => simp at hline
  | cons first lines =>
    have hfirst := hlines first List.mem_cons_self
    have hlines' : ∀ next ∈ lines, next.length = (first.map String.length).length :=
      fun next hnext => by
        rw [List.length_map, hfirst, hlines next (List.mem_cons_of_mem _ hnext)]
    obtain ⟨hwidths, hrest⟩ := fit_foldl_max hlines'
    rcases List.mem_cons.1 hline with rfl | hline
    · exact hwidths
    · exact hrest line hline

end Widths

/-! ## Aligned columns -/

section Columns

variable {widths : List Nat} {lines : List (List String)} {line : List String}

/-- The cells of a line, padded to the widths of their columns. -/
def paddedCells (widths : List Nat) (line : List String) : List (List Char) :=
  (widths.zipWith padLeft line).map String.toList

/-- A line of padded cells with a bar between neighbours. -/
def paddedLine (widths : List Nat) (line : List String) : List Char :=
  columnBar.intercalate (paddedCells widths line)

theorem toList_padLeft (width : Nat) (s : String) :
    (padLeft width s).toList = List.replicate (width - s.length) ' ' ++ s.toList := by
  simp [padLeft, List.leftpad, String.length_toList]

theorem toList_alignColumns (lines : List (List String)) :
    (alignColumns lines).map String.toList = lines.map (paddedLine (columnWidths lines)) := by
  simp only [alignColumns, List.map_map]
  refine List.map_congr_left fun line _ => ?_
  rw [Function.comp_apply, String.toList_intercalate]
  rfl

/-- The cells have the widths of their columns. -/
theorem length_paddedCells (h : Fit widths (line.map String.length)) :
    (paddedCells widths line).map List.length = widths := by
  rw [Fit, List.forall₂_map_right_iff] at h
  induction h with
  | nil => rfl
  | cons hle _ ih =>
    simp only [paddedCells, List.zipWith_cons_cons, List.map_cons, List.cons.injEq] at ih ⊢
    refine ⟨?_, ih⟩
    rw [toList_padLeft, List.length_append, List.length_replicate, String.length_toList]
    omega

/-- Without its padding a cell is the entry, if this does not begin with a space. -/
theorem dropWhile_paddedCells (h : Fit widths (line.map String.length))
    (hline : ∀ s ∈ line, s.toList.head? ≠ some ' ') :
    (paddedCells widths line).map (·.dropWhile (· == ' ')) = line.map String.toList := by
  rw [Fit, List.forall₂_map_right_iff] at h
  induction h with
  | nil => rfl
  | @cons w s widths line _ _ ih =>
    have hrest := ih fun t ht => hline t (List.mem_cons_of_mem _ ht)
    simp only [paddedCells, List.zipWith_cons_cons, List.map_cons, List.cons.injEq] at hrest ⊢
    refine ⟨?_, hrest⟩
    have hs := hline s List.mem_cons_self
    rw [toList_padLeft, List.dropWhile_append_of_pos (by simp)]
    cases hcs : s.toList with
    | nil => rfl
    | cons c cs => exact List.dropWhile_cons_of_neg (by simpa [hcs] using hs)

theorem length_paddedLine (h : Fit widths (line.map String.length)) :
    (paddedLine widths line).length = widths.sum + 3 * (widths.length - 1) := by
  have hcells := length_paddedCells h
  rw [paddedLine, length_intercalate_columnBar, hcells, ← List.length_map List.length, hcells]

/-- A line of padded cells is cut at the bars into these cells. -/
theorem fieldsFrom_paddedLine (h : Fit widths (line.map String.length)) (hne : line ≠ []) :
    fieldsFrom 0 (barOffsets 0 widths) (paddedLine widths line) = paddedCells widths line ∧
      ∀ o ∈ barOffsets 0 widths, ((paddedLine widths line).drop o).take 3 = columnBar := by
  have hwidths := length_paddedCells h
  have hcells : paddedCells widths line ≠ [] := by
    intro hnil
    have hlength := h.length_eq
    rw [← hwidths, hnil, List.map_nil, List.length_nil, List.length_map] at hlength
    exact hne (List.length_eq_zero_iff.1 hlength.symm)
  have hcut := fieldsFrom_intercalate hcells []
  rwa [hwidths] at hcut

/-- A character that is in no entry, and not in the bars and the padding, is not in the line. -/
theorem not_mem_paddedLine {c : Char} (hbar : c ∉ columnBar) (hline : ∀ s ∈ line, c ∉ s.toList) :
    c ∉ paddedLine widths line := by
  refine not_mem_intercalate hbar fun cell hcell => ?_
  rw [paddedCells, ← List.map_uncurry_zip_eq_zipWith] at hcell
  simp only [List.mem_map] at hcell
  obtain ⟨_, ⟨⟨w, s⟩, hmem, rfl⟩, rfl⟩ := hcell
  have hspace : c ≠ ' ' := by
    rintro rfl
    exact hbar List.mem_cons_self
  simp [Function.uncurry, toList_padLeft, hspace, hline s (List.of_mem_zip hmem).2]

/-- Aligned columns are ruled, and the entries of each line can be read off it. -/
theorem ruled_alignColumns {n : Nat} (hn : 0 < n) (hlines : ∀ line ∈ lines, line.length = n)
    (hentries : ∀ line ∈ lines, ∀ s ∈ line, s.toList.head? ≠ some ' ') :
    ∃ offsets width, Ruled offsets width ((alignColumns lines).map String.toList) ∧
      (lines ≠ [] → offsets.length + 1 = n) ∧
      ((alignColumns lines).map String.toList).map (entriesAt offsets)
        = lines.map (·.map String.toList) := by
  have hfit : ∀ line ∈ lines, Fit (columnWidths lines) (line.map String.length) :=
    fun line => fit_columnWidths hlines
  have hcut := fun line hline => fieldsFrom_paddedLine (hfit line hline)
    (List.ne_nil_of_length_pos (by rwa [hlines line hline]))
  rw [toList_alignColumns]
  refine ⟨barOffsets 0 (columnWidths lines),
    (columnWidths lines).sum + 3 * ((columnWidths lines).length - 1), ⟨?_, ?_, ?_⟩, ?_, ?_⟩
  · exact List.forall_mem_map.2 fun line hline => length_paddedLine (hfit line hline)
  · exact List.forall_mem_map.2 fun line hline => (hcut line hline).2
  · exact (pairwise_barOffsets 0 (columnWidths lines)).2
  · intro hne
    obtain ⟨line, hline⟩ := List.exists_mem_of_ne_nil lines hne
    have hlength := (hfit line hline).length_eq
    rw [List.length_map, hlines line hline] at hlength
    rw [length_barOffsets]
    omega
  · rw [List.map_map]
    refine List.map_congr_left fun line hline => ?_
    rw [Function.comp_apply, entriesAt, (hcut line hline).1]
    exact dropWhile_paddedCells (hfit line hline) (hentries line hline)

end Columns

end Text

/-! ## Tables -/

namespace Table

open Text

variable {g : Grammar} {name : String} {x : Symbol}

/-- A cell as plain text: the rule to be used, or nothing if there is none. -/
def entryText (t : Table) (name : String) (x : Symbol) : String :=
  match t.cell? name x with
  | none => ""
  | some p => name ++ " -> " ++ p.text

theorem entryText_eq_empty_iff {t : Table} : t.entryText name x = "" ↔ t.cell? name x = none := by
  unfold entryText
  cases t.cell? name x <;> simp

theorem cellText_cell? (t : Table) : cellText name (t.cell? name x) = t.entryText name x := by
  unfold entryText
  cases t.cell? name x with
  | none => rfl
  | some p =>
    have hname : padLeft name.length name = name := by
      simp [padLeft, List.leftpad, String.length_toList]
    simp [cellText, RuleText.single, RuleText.plain, Alternative.text, hname]

/-- The lines of the grid: the terminals, and for each nonterminal its cells. -/
theorem grid_eq (t : Table) :
    t.grid = ("" :: t.grammar.terminals.map Symbol.name) ::
      t.grammar.names.map fun name => name :: t.grammar.terminals.map (t.entryText name) := by
  simp [grid, rows, Grammar.terminalNames, Function.comp_def, cellText_cell?]

theorem length_of_mem_grid {t : Table} {line : List String} (hline : line ∈ t.grid) :
    line.length = t.grammar.terminals.length + 1 := by
  rw [grid_eq] at hline
  rcases List.mem_cons.1 hline with rfl | hline
  · simp
  · obtain ⟨name, -, rfl⟩ := List.mem_map.1 hline
    simp

/-- An entry of a written table: it does not begin with a space, and no line ends in it. -/
structure IsEntry (s : String) : Prop where
  head : s.toList.head? ≠ some ' '
  not_newline : '\n' ∉ s.toList

theorem isEntry_of_isWord {s : String} (h : IsWord s.toList) : IsEntry s where
  head hhead := by simpa [isBlank] using h.2 ' ' (List.mem_of_head? hhead)
  not_newline hmem := by simpa [isBlank] using h.2 '\n' hmem

theorem isEntry_rule {p : Alternative} (hname : IsWord name.toList)
    (hp : ∀ s ∈ p, IsWord s.name.toList) : IsEntry (name ++ " -> " ++ p.text) where
  head := by
    have hhead := (isEntry_of_isWord hname).head
    rw [String.toList_append, String.toList_append, List.append_assoc,
      List.head?_append_of_ne_nil _ hname.1]
    exact hhead
  not_newline := by
    have hleft := (isEntry_of_isWord hname).not_newline
    have hright : '\n' ∉ [' '].intercalate (p.map fun s => s.name.toList) :=
      not_mem_intercalate (by decide) <| List.forall_mem_map.2 fun s hs =>
        (isEntry_of_isWord (hp s hs)).not_newline
    simpa [Alternative.text, String.toList_intercalate, Function.comp_def, hleft] using hright

/-- All texts in the grid of an attainable grammar are entries. -/
theorem isEntry_of_mem_grid (hg : g.Attainable) (follow : FollowSets) {line : List String}
    (hline : line ∈ (build g.firstSets follow).grid) {s : String} (hs : s ∈ line) :
    IsEntry s := by
  have hempty : IsEntry "" := ⟨by simp, by simp⟩
  rw [grid_eq, grammar_build] at hline
  rcases List.mem_cons.1 hline with rfl | hline
  · rcases List.mem_cons.1 hs with rfl | hs
    · exact hempty
    · obtain ⟨x, hx, rfl⟩ := List.mem_map.1 hs
      exact isEntry_of_isWord (hg.isWord_name_of_mem_terminals hx)
  obtain ⟨name, hname, rfl⟩ := List.mem_map.1 hline
  obtain ⟨r, hr, rfl⟩ := Grammar.mem_names.1 hname
  have hword := (hg.spelled.rules r hr).name
  rcases List.mem_cons.1 hs with rfl | hs
  · exact isEntry_of_isWord hword
  obtain ⟨x, -, rfl⟩ := List.mem_map.1 hs
  unfold entryText
  cases hcell : (build g.firstSets follow).cell? r.name x with
  | none => exact hempty
  | some p =>
    have hp := mem_alternatives_of_cell? hg.wellFormed hcell
    exact isEntry_rule hword fun s hs =>
      hg.isWord_name (Grammar.mem_occurrences_of_mem_alternatives hp hs)

/-- A written table is a grid with a line for the terminals and one for each nonterminal, in the
order of the grammar. All lines are as long as each other and have their bars at the same offsets,
and what is between the bars without its padding is the name of the nonterminal and the rule in each
of its cells, or nothing if there is none. -/
theorem plain_ruled (hg : g.Attainable) (follow : FollowSets) :
    let t := build g.firstSets follow
    ∃ header rows offsets width,
      t.plain.toList.splitOn '\n' = header :: rows ∧ Ruled offsets width (header :: rows) ∧
      offsets.length = g.terminals.length ∧
      entriesAt offsets header = [] :: g.terminals.map (·.name.toList) ∧
      rows.map (entriesAt offsets) = g.names.map (fun name =>
        name.toList :: g.terminals.map fun x => (t.entryText name x).toList) ∧
      ∀ name x, t.entryText name x = "" ↔ t.cell? name x = none := by
  intro t
  have hgrammar : t.grammar = g := grammar_build
  have hentry : ∀ line ∈ t.grid, ∀ s ∈ line, IsEntry s := fun line hline s hs =>
    isEntry_of_mem_grid hg follow hline hs
  obtain ⟨offsets, width, hruled, hlength, hentries⟩ := ruled_alignColumns (Nat.succ_pos _)
    (fun line => length_of_mem_grid (t := t)) fun line hline s hs => (hentry line hline s hs).head
  have hlines : t.plain.toList.splitOn '\n' = (alignColumns t.grid).map String.toList := by
    rw [plain, String.toList_intercalate]
    refine List.splitOn_intercalate '\n' ?_ (by simp [alignColumns, grid])
    rw [toList_alignColumns]
    exact List.forall_mem_map.2 fun line hline =>
      not_mem_paddedLine (by decide) fun s hs => (hentry line hline s hs).not_newline
  obtain ⟨header, rows, hsplit⟩ : ∃ header rows,
      (alignColumns t.grid).map String.toList = header :: rows :=
    List.exists_cons_of_ne_nil (by simp [alignColumns, grid])
  rw [hsplit] at hruled hentries hlines
  rw [grid_eq, hgrammar] at hentries
  obtain ⟨hheader, hrows⟩ := List.cons.inj hentries
  have hcolumns : offsets.length = g.terminals.length := by
    have hn := Nat.succ.inj (hlength (by simp [grid]))
    rwa [hgrammar] at hn
  refine ⟨header, rows, offsets, width, hlines, hruled, hcolumns, ?_, ?_, fun _ _ =>
    entryText_eq_empty_iff⟩
  · simpa [Function.comp_def] using hheader
  · simpa [Function.comp_def] using hrows

/-- A nonterminal with a bar in its name. -/
theorem plain_ruled_of_text :
    let g : Grammar :=
      { rules := [⟨"S|", [[.terminal "é", .nonterminal "T"], [.epsilon]]⟩,
          ⟨"T", [[.terminal "-"], [.terminal "+-+", .nonterminal "T"]]⟩]
        start := "S|" }
    let t := build g.firstSets g.firstSets.followSets
    Grammar.ofText "S| -> é T | ε; T -> - | +-+ T" = .ok g ∧
      ∃ header rows offsets width, t.plain.toList.splitOn '\n' = header :: rows ∧
        Ruled offsets width (header :: rows) ∧
        entriesAt offsets header = ["", "é", "-", "+-+", "$"].map String.toList ∧
        rows.map (entriesAt offsets) =
          [["S|", "S| -> é T", "", "", "S| -> ε"], ["T", "", "T -> -", "T -> +-+ T", ""]].map
            (·.map String.toList) := by
  intro g t
  have hg : Grammar.ofText "S| -> é T | ε; T -> - | +-+ T" = .ok g := by
    set_option maxRecDepth 4000 in rfl
  have hentries : g.terminals.map (·.name) = ["é", "-", "+-+", "$"] ∧
      g.names.map (fun name => name :: g.terminals.map (t.entryText name)) =
        [["S|", "S| -> é T", "", "", "S| -> ε"], ["T", "", "T -> -", "T -> +-+ T", ""]] := by
    simp only [t, g]
    cbv
  obtain ⟨header, rows, offsets, width, hlines, hruled, -, hheader, hrows, -⟩ :=
    plain_ruled (.ofText hg) g.firstSets.followSets
  refine ⟨hg, header, rows, offsets, width, hlines, hruled, ?_, ?_⟩
  · rw [hheader, List.map_cons, ← hentries.1, List.map_map]
    rfl
  · rw [hrows, ← hentries.2, List.map_map]
    simp [Function.comp_def, t]

end Table

end PredictiveParsing
