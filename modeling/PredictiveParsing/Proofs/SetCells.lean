import Mathlib.Algebra.BigOperators.Group.List.Basic
import Mathlib.Algebra.GroupWithZero.Nat
import PredictiveParsing.Outer.Tex
import PredictiveParsing.Proofs.Cells
import PredictiveParsing.Proofs.Spelling
import PredictiveParsing.Render.RuleText
import PredictiveParsing.Render.Sets

/-!
# Sets in TeX

In a written set the names are joined first, and then every sign of the empty word in the joined
text becomes a formula. No such sign stands between two names, so this still gives one form for each
symbol. But the sign is a letter and may be part of a name. There it becomes a formula as well, so
it is enough to count the signs to see where the written sets differ from sets with the names as
they are. Names are escaped character by character, in whatever way.

## Main definitions

* `Text.signs`: the number of signs of the empty word in a text.
* `Text.PerCharacter`: an escaping that writes each character by itself.
* `Symbol.texForm`, `Symbol.memberForm`: how a symbol is written by what it is, and how in a set.

## Main statements

* `SetsRow.texSet_memberNames`: a written set has one form for each of its symbols.
* `SetsRow.allTex_by_symbols`: the written sets of a grammar.
-/

namespace PredictiveParsing

open Text

/-! ## The sign of the empty word -/

namespace Text

/-- The number of signs of the empty word in a text. -/
def signs (text : String) : Nat := text.toList.count 'ε'

theorem signs_eq_zero_iff {text : String} : signs text = 0 ↔ 'ε' ∉ text.toList :=
  List.count_eq_zero

theorem signs_append (text rest : String) : signs (text ++ rest) = signs text + signs rest := by
  rw [signs, String.toList_append, List.count_append, signs, signs]

/-- Joints without the sign do not count. -/
theorem signs_intercalate {joint : String} (h : signs joint = 0) (parts : List String) :
    signs (joint.intercalate parts) = (parts.map signs).sum := by
  induction parts with
  | nil => rfl
  | cons part parts ih =>
    cases parts with
    | nil => simp
    | cons next parts =>
      rw [String.intercalate_cons_cons, signs_append, signs_append, ih, h, Nat.add_zero]
      rfl

/-- Each character of a text is written by itself when the text is escaped: one that is not in
ASCII as it is, and one that is as some ASCII text. -/
structure PerCharacter (escape : String → String) (form : Char → String) : Prop where
  escape_eq : ∀ text, escape text = String.join (text.toList.map form)
  of_not_ascii : ∀ c, 128 ≤ c.toNat → form c = c.toString
  ascii : ∀ c, c.toNat < 128 → ∀ d ∈ (form c).toList, d.toNat < 128

namespace PerCharacter

variable {escape : String → String} {form : Char → String} (hescape : PerCharacter escape form)
include hescape

theorem epsilon_mem_form {c : Char} : 'ε' ∈ (form c).toList ↔ c = 'ε' := by
  rcases Nat.lt_or_ge c.toNat 128 with hc | hc
  · constructor
    · exact fun hmem => absurd (hescape.ascii c hc _ hmem) (by decide)
    · rintro rfl
      exact absurd hc (by decide)
  · simp [hescape.of_not_ascii c hc, eq_comm]

/-- The escaped form of a text has the sign if the text has it. -/
theorem epsilon_mem_escape {text : String} : 'ε' ∈ (escape text).toList ↔ 'ε' ∈ text.toList := by
  rw [hescape.escape_eq, String.toList_join, List.mem_flatMap]
  simp only [List.mem_map, exists_exists_and_eq_and, hescape.epsilon_mem_form, exists_eq_right]

/-- The sign itself is written as it is. -/
theorem escape_epsilon : escape Symbol.epsilon.name = Symbol.epsilon.name := by
  rw [hescape.escape_eq]
  exact hescape.of_not_ascii 'ε' (by decide)

end PerCharacter

end Text

namespace SetsRow

/-- A text with a formula for each sign of the empty word. -/
def formulas (text : String) : String := String.join (text.toList.map epsilonFormula)

theorem toList_formulas (text : String) :
    (formulas text).toList = text.toList.flatMap fun c => (epsilonFormula c).toList := by
  simp [formulas, String.toList_join, List.flatMap_map]

theorem formulas_append (text rest : String) :
    formulas (text ++ rest) = formulas text ++ formulas rest := by
  simp [formulas, String.join_append]

/-- No sign is left. -/
theorem signs_formulas (text : String) : signs (formulas text) = 0 := by
  rw [signs_eq_zero_iff, toList_formulas]
  intro hmem
  obtain ⟨c, -, hc⟩ := List.mem_flatMap.1 hmem
  by_cases hsign : c = 'ε'
  · simp [epsilonFormula, hsign] at hc
  · simp [epsilonFormula, hsign, Ne.symm hsign] at hc

theorem formulas_eq_self_iff {text : String} : formulas text = text ↔ 'ε' ∉ text.toList := by
  constructor
  · exact fun h => signs_eq_zero_iff.1 (h ▸ signs_formulas text)
  · intro h
    apply String.toList_injective
    rw [toList_formulas]
    generalize text.toList = cs at h
    induction cs with
    | nil => rfl
    | cons c cs ih =>
      obtain ⟨hc, hcs⟩ := not_or.1 (List.mem_cons.not.1 h)
      have hself : epsilonFormula c = c.toString := if_neg (by simpa using Ne.symm hc)
      simp [hself, ih hcs]

/-- The texts between joints without the sign can be dealt with one by one. -/
theorem formulas_intercalate {joint : String} (h : signs joint = 0) (parts : List String) :
    formulas (joint.intercalate parts) = joint.intercalate (parts.map formulas) := by
  induction parts with
  | nil => rfl
  | cons part parts ih =>
    cases parts with
    | nil => simp
    | cons next parts =>
      simp only [List.map_cons, String.intercalate_cons_cons, formulas_append] at ih ⊢
      rw [ih, formulas_eq_self_iff.2 (signs_eq_zero_iff.1 h)]

end SetsRow

/-! ## The symbols of a set -/

namespace Symbol

variable {set : List Symbol} {s : Symbol}

/-- The symbols of a set in increasing order of the names, with the empty word last. -/
def listing (set : List Symbol) : List Symbol :=
  (set.eraseDups.filter (· != .epsilon)).mergeSort (·.name ≤ ·.name) ++
    if set.contains .epsilon then [.epsilon] else []

theorem memberNames_eq (set : List Symbol) : memberNames set = (listing set).map name := by
  rw [memberNames, listing, List.map_append,
    List.map_mergeSort (s := fun a b : String => a ≤ b) fun _ _ _ _ => rfl]
  split <;> rfl

theorem mem_listing : s ∈ listing set ↔ s ∈ set := by
  by_cases hε : .epsilon ∈ set <;> by_cases hs : s = .epsilon <;>
    simp [listing, List.mem_eraseDups, hε, hs]

theorem nodup_listing (set : List Symbol) : (listing set).Nodup := by
  have hnames : ((set.eraseDups.filter (· != .epsilon)).mergeSort (·.name ≤ ·.name)).Nodup :=
    (List.mergeSort_perm _ _).nodup_iff.2 ((Grammar.nodup_eraseDups set).filter _)
  unfold listing
  split
  · exact hnames.append (List.nodup_singleton _) (by simp [List.disjoint_singleton])
  · rwa [List.append_nil]

/-- How a symbol is written by what it is. -/
def texForm (escape : String → String) : Symbol → String
  | epsilon => "$\\epsilon$"
  | s => escape s.name

/-- How a symbol is written in a set. -/
def memberForm (escape : String → String) (s : Symbol) : String := SetsRow.formulas (escape s.name)

variable {escape : String → String} {form : Char → String}

theorem texForm_of_ne (h : s ≠ .epsilon) : s.texForm escape = escape s.name := by
  cases s <;> first | rfl | exact absurd rfl h

variable (hescape : PerCharacter escape form)
include hescape

theorem memberForm_epsilon : memberForm escape .epsilon = texForm escape .epsilon := by
  rw [memberForm, hescape.escape_epsilon]
  change SetsRow.formulas epsilon.name = "$\\epsilon$"
  decide

/-- The two forms differ for terminals with the sign of the empty word in their name. -/
theorem memberForm_eq_texForm_iff :
    s.memberForm escape = s.texForm escape ↔ s = .epsilon ∨ 'ε' ∉ s.name.toList := by
  by_cases hs : s = .epsilon
  · simp [hs, memberForm_epsilon hescape]
  · rw [memberForm, texForm_of_ne hs, SetsRow.formulas_eq_self_iff, hescape.epsilon_mem_escape]
    simp [hs]

theorem signs_texForm : signs (s.texForm escape) = 0 ↔ s = .epsilon ∨ 'ε' ∉ s.name.toList := by
  by_cases hs : s = .epsilon
  · simp [hs, texForm, signs]
  · rw [texForm_of_ne hs, signs_eq_zero_iff, hescape.epsilon_mem_escape]
    simp [hs]

end Symbol

/-! ## Written sets -/

namespace SetsRow

open PredictiveParsing.Symbol

variable {set : List Symbol} {escape : String → String} {form : Char → String}

/-- A set as a list of its symbols, each in the given form. -/
def cell (form : Symbol → String) (set : List Symbol) : String :=
  "\\ ".intercalate ((listing set).map form)

/-- A written set has one form for each of its symbols. -/
theorem texSet_memberNames (escape : String → String) (set : List Symbol) :
    texSet escape (memberNames set) = cell (memberForm escape) set := by
  have hjoint : signs "\\ " = 0 := by decide
  calc texSet escape (memberNames set)
      = formulas ("\\ ".intercalate ((memberNames set).map escape)) := rfl
    _ = "\\ ".intercalate (((memberNames set).map escape).map formulas) :=
        formulas_intercalate hjoint _
    _ = cell (memberForm escape) set := by
        rw [memberNames_eq, List.map_map, List.map_map]
        rfl

theorem signs_cell_memberForm (escape : String → String) (set : List Symbol) :
    signs (cell (memberForm escape) set) = 0 := by
  rw [← texSet_memberNames]
  exact signs_formulas _

variable (hescape : PerCharacter escape form)
include hescape

theorem signs_cell_texForm :
    signs (cell (texForm escape) set) = 0 ↔ ∀ s ∈ set, s = .epsilon ∨ 'ε' ∉ s.name.toList := by
  rw [cell, signs_intercalate (by decide), List.map_map, List.sum_eq_zero_iff_forall_eq_nat]
  simp [mem_listing, signs_texForm hescape]

/-- A set is written by what its symbols are if none of its terminals has the sign of the empty word
in its name. -/
theorem cell_memberForm_eq_iff :
    cell (memberForm escape) set = cell (texForm escape) set ↔
      ∀ s ∈ set, s = .epsilon ∨ 'ε' ∉ s.name.toList := by
  constructor
  · exact fun heq => (signs_cell_texForm hescape).1 (heq ▸ signs_cell_memberForm escape set)
  · intro h
    have hforms : (listing set).map (memberForm escape) = (listing set).map (texForm escape) :=
      List.map_congr_left fun s hs => (memberForm_eq_texForm_iff hescape).2 (h s (mem_listing.1 hs))
    rw [cell, cell, hforms]

end SetsRow

/-! ## The sets of a grammar -/

namespace Grammar

variable {g : Grammar} {name : String} {set : List Symbol} {s : Symbol}

section Tabular

variable (escape : String → String)

/-- The sets of a nonterminal in TeX, with each symbol in the given form. -/
def tabularRow (g : Grammar) (form : Symbol → String) (name : String) : String :=
  " & ".intercalate
    [escape name, if g.firstSets.isNullable name then "true" else "false",
      SetsRow.cell form ((g.firstSets.get? name).getD []),
      SetsRow.cell form ((g.firstSets.followSets.get? name).getD [])]

/-- The sets of all nonterminals in TeX, with each symbol in the given form. -/
def tabular (g : Grammar) (form : Symbol → String) : String :=
  "\\begin\x7btabular\x7d\x7bc|c|c|c\x7d\n" ++
    "Symbol & Nullable & First & Follow\\\\\\hline\n" ++
    "\\\\\n ".intercalate (g.names.map (g.tabularRow escape form)) ++
    "\\\\\n\\end\x7btabular\x7d"

end Tabular

/-- Whether a set is a `FIRST` or a `FOLLOW` set of the grammar. -/
def HasSet (g : Grammar) (set : List Symbol) : Prop :=
  ∃ name, g.firstSets.get? name = some set ∨ g.firstSets.followSets.get? name = some set

theorem hasSet_iff :
    g.HasSet set ↔ ∃ name ∈ g.names,
      set = membersOf g.firstSets.facts name ∨ set = membersOf g.followFacts name := by
  refine exists_congr fun name => ?_
  by_cases hname : name ∈ g.names
  · simp [get?_firstSets hname, get?_followSets hname, hname, eq_comm]
  · have hfollow : g.firstSets.followSets.get? name = none :=
      if_neg fun hd => hname (declares_iff.1 hd)
    simp [get?_firstSets_eq_none hname, hfollow, hname]

/-- All symbols in the sets but the empty word are terminals of the grammar. -/
theorem HasSet.mem_terminals (hg : g.WellFormed) (hset : g.HasSet set) (hs : s ∈ set)
    (hne : s ≠ .epsilon) : s ∈ g.terminals := by
  obtain ⟨name, -, hset⟩ := hasSet_iff.1 hset
  have hfact : (name, s) ∈ g.factDomain := by
    rcases hset with rfl | rfl
    · exact facts_firstSets_subset g (mem_membersOf.1 hs)
    · exact facts_followSets_subset hg (mem_membersOf.1 hs)
  exact hg.mem_terminals_of_mem_lookaheads (mem_factDomain.1 hfact).2 hne

/-- The empty word has no terminal's name. -/
theorem Attainable.name_ne_epsilon (hg : g.Attainable) (hs : s ∈ g.terminals) :
    s.name ≠ Symbol.epsilon.name := by
  rcases hg.wellFormed.mem_terminals_iff.1 hs with rfl | ⟨a, rfl, hmem⟩
  · decide
  · obtain ⟨r, hr, p, hp, hmem⟩ := mem_occurrences.1 hmem
    have hspelled := ((hg.spelled.rules r hr).alternatives p hp).of_mem hmem (by simp)
    exact fun h => hspelled.2 (.inl h)

/-- A terminal in a written rule. -/
theorem Attainable.texSymbol_of_mem_terminals (hg : g.Attainable) (escape : String → String)
    (hs : s ∈ g.terminals) :
    RuleText.texSymbol escape g.terminalNames s.name = "\\text\x7b" ++ escape s.name ++ "\x7d" := by
  have hname : g.terminalNames.contains s.name = true := by
    simpa [terminalNames] using ⟨s, hs, rfl⟩
  rw [RuleText.texSymbol, if_neg (by simpa using hg.name_ne_epsilon hs), if_pos hname]

end Grammar

namespace SetsRow

open PredictiveParsing.Symbol

variable {g : Grammar}

theorem signs_tabularRow {escape : String → String} {form : Symbol → String} {name : String}
    (hname : name ∈ g.names) :
    signs (g.tabularRow escape form name) = signs (escape name) +
      (signs (cell form (membersOf g.firstSets.facts name)) +
        signs (cell form (membersOf g.followFacts name))) := by
  have hnullable : signs (if g.firstSets.isNullable name then "true" else "false") = 0 := by
    split <;> decide
  rw [Grammar.tabularRow, signs_intercalate (by decide), Grammar.get?_firstSets hname,
    Grammar.get?_followSets hname]
  simp [hnullable]

/-- The signs are those of the names of the nonterminals and those of the sets. -/
theorem signs_tabular (g : Grammar) (escape : String → String) (form : Symbol → String) :
    signs (g.tabular escape form) = (g.names.map fun name => signs (escape name)).sum +
      (g.names.map fun name => signs (cell form (membersOf g.firstSets.facts name)) +
        signs (cell form (membersOf g.followFacts name))).sum := by
  have hhead : signs ("\\begin\x7btabular\x7d\x7bc|c|c|c\x7d\n" ++
      "Symbol & Nullable & First & Follow\\\\\\hline\n") = 0 := by decide +kernel
  have hjoint : signs "\\\\\n " = 0 := by decide
  have hend : signs "\\\\\n\\end\x7btabular\x7d" = 0 := by decide
  have hrows : (g.names.map fun name => signs (g.tabularRow escape form name)) = _ :=
    List.map_congr_left fun name hname => signs_tabularRow hname
  unfold Grammar.tabular
  rw [signs_append, signs_append, hhead, hend, signs_intercalate hjoint, List.map_map, Nat.zero_add,
    Nat.add_zero, ← List.sum_map_add, ← hrows, Function.comp_def]

variable {escape : String → String} {form : Char → String}

/-- The sets of a grammar are written by what their symbols are if no set has a terminal with the
sign of the empty word in its name. -/
theorem tabular_memberForm_eq_iff (hescape : PerCharacter escape form) :
    g.tabular escape (memberForm escape) = g.tabular escape (texForm escape) ↔
      ∀ set, g.HasSet set → ∀ s ∈ set, s = .epsilon ∨ 'ε' ∉ s.name.toList := by
  constructor
  · intro heq set hset
    have hsigns := congrArg signs heq
    rw [signs_tabular, signs_tabular] at hsigns
    -- The signs of the sets are the only ones that can differ, and on the left there are none.
    have hsets := (Nat.add_left_cancel hsigns).symm
    simp only [signs_cell_memberForm, Nat.add_zero, List.map_const', List.sum_replicate_nat,
      Nat.mul_zero] at hsets
    obtain ⟨name, hname, hset⟩ := Grammar.hasSet_iff.1 hset
    have hzero := List.sum_eq_zero_iff_forall_eq_nat.1 hsets _ (List.mem_map_of_mem hname)
    obtain ⟨hfirst, hfollow⟩ := Nat.add_eq_zero_iff.1 hzero
    rcases hset with rfl | rfl
    · exact (signs_cell_texForm hescape).1 hfirst
    · exact (signs_cell_texForm hescape).1 hfollow
  · intro h
    have hrows : g.names.map (g.tabularRow escape (memberForm escape))
        = g.names.map (g.tabularRow escape (texForm escape)) := by
      refine List.map_congr_left fun name hname => ?_
      have hcell : ∀ set, g.HasSet set → cell (memberForm escape) set = cell (texForm escape) set :=
        fun set hset => (cell_memberForm_eq_iff hescape).2 (h set hset)
      rw [Grammar.tabularRow, Grammar.tabularRow, Grammar.get?_firstSets hname,
        Grammar.get?_followSets hname]
      simp [hcell _ (Grammar.hasSet_iff.2 ⟨name, hname, .inl rfl⟩),
        hcell _ (Grammar.hasSet_iff.2 ⟨name, hname, .inr rfl⟩)]
    unfold Grammar.tabular
    rw [hrows]

theorem tex_ofName (escape : String → String) (g : Grammar) (name : String) :
    (ofName g.firstSets g.firstSets.followSets name).tex escape
      = g.tabularRow escape (memberForm escape) name := by
  rw [tex, Grammar.tabularRow, ← texSet_memberNames, ← texSet_memberNames]
  rfl

theorem allTex_all (escape : String → String) (g : Grammar) :
    allTex escape (all g.firstSets g.firstSets.followSets)
      = g.tabular escape (memberForm escape) := by
  have hall : all g.firstSets g.firstSets.followSets
      = g.names.map (ofName g.firstSets g.firstSets.followSets) := rfl
  have hrows : (all g.firstSets g.firstSets.followSets).map (tex escape)
      = g.names.map (g.tabularRow escape (memberForm escape)) := by
    rw [hall, List.map_map]
    exact List.map_congr_left fun name _ => tex_ofName escape g name
  unfold allTex Grammar.tabular
  rw [hrows]

/-- The written sets of a grammar have one form for each symbol. For the empty word and the
terminals without its sign in their names it is the form that tells what the symbol is, which is
also that of a terminal in a written rule. The other terminals are written as if the empty word were
part of them. -/
theorem allTex_by_symbols (hescape : PerCharacter escape form) (hg : g.Attainable) :
    let written := allTex escape (all g.firstSets g.firstSets.followSets)
    written = g.tabular escape (memberForm escape) ∧
    (written = g.tabular escape (texForm escape) ↔
      ∀ set, g.HasSet set → ∀ s ∈ set, s = .epsilon ∨ 'ε' ∉ s.name.toList) ∧
    ∀ set, g.HasSet set →
      (listing set).Nodup ∧ (∀ s, s ∈ listing set ↔ s ∈ set) ∧
      (∀ s ∈ set, s = .epsilon ∨ s ∈ g.terminals ∧
        RuleText.texSymbol escape g.terminalNames s.name
          = "\\text\x7b" ++ s.texForm escape ++ "\x7d") ∧
      (∀ s ∈ set, s.memberForm escape = s.texForm escape ↔
        s = .epsilon ∨ 'ε' ∉ s.name.toList) ∧
      (cell (memberForm escape) set = cell (texForm escape) set ↔
        ∀ s ∈ set, s = .epsilon ∨ 'ε' ∉ s.name.toList) := by
  intro written
  have hwritten : written = g.tabular escape (memberForm escape) := allTex_all escape g
  refine ⟨hwritten, by rw [hwritten, tabular_memberForm_eq_iff hescape],
    fun set hset => ⟨nodup_listing set, fun _ => mem_listing, fun s hs => ?_,
      fun _ _ => memberForm_eq_texForm_iff hescape, cell_memberForm_eq_iff hescape⟩⟩
  by_cases hne : s = .epsilon
  · exact .inl hne
  · have hmem := hset.mem_terminals hg.wellFormed hs hne
    exact .inr ⟨hmem, by rw [texForm_of_ne hne, hg.texSymbol_of_mem_terminals escape hmem]⟩

/-! ## A concrete escaping -/

/-- Escapes each character by itself. -/
def escapeEach (text : String) : String := String.join (text.toList.map Tex.escapeChar)

theorem perCharacter_escapeEach : PerCharacter escapeEach Tex.escapeChar where
  escape_eq _ := rfl
  of_not_ascii c hc := by
    unfold Tex.escapeChar
    split <;> first | rfl | exact absurd hc (by decide)
  ascii c hc := by
    unfold Tex.escapeChar
    split
    case h_16 => simpa using hc
    all_goals simp

/-- One set of a grammar has a terminal with the sign of the empty word in its name, and the other
has none. -/
theorem allTex_by_symbols_of_text :
    let g : Grammar :=
      { rules := [⟨"S", [[.terminal "aε", .nonterminal "S", .terminal "&"], [.epsilon]]⟩]
        start := "S" }
    let first : List Symbol := [.terminal "aε", .epsilon]
    let follow : List Symbol := [.endMarker, .terminal "&"]
    Grammar.ofText "S -> aε S & | ε" = .ok g ∧
      g.firstSets.get? "S" = some first ∧ g.firstSets.followSets.get? "S" = some follow ∧
      allTex escapeEach (all g.firstSets g.firstSets.followSets)
        = g.tabular escapeEach (memberForm escapeEach) ∧
      cell (memberForm escapeEach) first ≠ cell (texForm escapeEach) first ∧
      cell (memberForm escapeEach) follow = cell (texForm escapeEach) follow ∧
      cell (texForm escapeEach) follow = "\\$\\ \\&" := by
  intro g first follow
  have hg : Grammar.ofText "S -> aε S & | ε" = .ok g := by
    set_option maxRecDepth 4000 in rfl
  have hfirst : g.firstSets.get? "S" = some first := by
    simp only [g, first]
    decide +kernel
  have hfollow : g.firstSets.followSets.get? "S" = some follow := by
    simp only [g, follow]
    decide +kernel
  obtain ⟨hall, -, hsets⟩ := allTex_by_symbols perCharacter_escapeEach (.ofText hg)
  obtain ⟨-, -, -, -, hfirstCell⟩ := hsets first ⟨"S", .inl hfirst⟩
  obtain ⟨-, -, -, -, hfollowCell⟩ := hsets follow ⟨"S", .inr hfollow⟩
  have hlisting : listing follow = follow := by
    simp only [follow]
    cbv
  refine ⟨hg, hfirst, hfollow, hall, hfirstCell.not.2 (by decide), hfollowCell.2 (by decide), ?_⟩
  rw [cell, hlisting]
  decide +kernel

/-- A name that ends with the sign of the empty word is written with the empty word at its end,
while a written rule has the name itself. -/
theorem allTex_splits_name :
    let g : Grammar := { rules := [⟨"S", [[.terminal "aε"]]⟩], start := "S" }
    PerCharacter escapeEach Tex.escapeChar ∧
      Grammar.ofText "S -> aε" = .ok g ∧ g.firstSets.get? "S" = some [.terminal "aε"] ∧
      (all g.firstSets g.firstSets.followSets).map (tex escapeEach)
        = ["S & false & a$\\epsilon$ & \\$"] ∧
      g.tabularRow escapeEach (texForm escapeEach) "S" = "S & false & aε & \\$" ∧
      RuleText.texSymbol escapeEach g.terminalNames "aε" = "\\text\x7baε\x7d" ∧
      allTex escapeEach (all g.firstSets g.firstSets.followSets)
        ≠ g.tabular escapeEach (texForm escapeEach) := by
  intro g
  have hg : Grammar.ofText "S -> aε" = .ok g := by
    set_option maxRecDepth 4000 in rfl
  refine ⟨perCharacter_escapeEach, hg, ?_, ?_, ?_, ?_, ?_⟩
  · simp only [g]
    decide +kernel
  · simp only [g]
    decide +kernel
  · simp only [g]
    decide +kernel
  · simp only [g]
    decide +kernel
  · simp only [g]
    decide +kernel

end SetsRow

end PredictiveParsing
