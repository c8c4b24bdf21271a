import PredictiveParsing.Proofs.Declarations
import PredictiveParsing.Proofs.Spelling

/-!
# The notation of grammars

The declarations of a text either have a reserved token, or no token at all, or they describe a
grammar. For the kind of the result it matters only which alternatives each left side has in turn.
So it stays the same when skipped pieces are put in, or when the alternatives of a declaration are
shared out to two declarations. Only the number in an error may change.

## Main definitions

* `Notation.Describes`: the grammar that declarations stand for.
* `Notation.Loads`: which of the three results declarations have.
* `Notation.choices`: the alternatives of declarations, each with its left side.

## Main statements

* `Notation.unnumbered_load_eq`: the alternatives with their left sides decide about the result.
* `Notation.ofText_reads_notation`: the reader reads exactly the notation.
-/

namespace PredictiveParsing

/-- An error without the number of the declaration. -/
def LoadError.unnumbered : LoadError → LoadError
  | malformed => malformed
  | reservedSymbol _ => reservedSymbol 0

namespace Notation

open Text Grammar

/-! ## Results -/

/-- A token occurs in an alternative of a declaration. -/
def HasToken (d : Declaration) (token : String) : Prop := ∃ tokens ∈ d.right, token ∈ tokens

/-- The symbol that a token stands for where `declared` are the left sides. -/
def symbolOf (declared : List String) (token : String) : Symbol :=
  if token ∈ declared then .nonterminal token
  else if token = "ε" ∨ token = "epsilon" then .epsilon
  else .terminal token

/-- The alternatives that are declared for a name in one place or another, without those that have
no token. -/
def declaredFor (ds : List Declaration) (name : String) : List (List String) :=
  ((ds.filter (·.left = name)).flatMap Declaration.right).filter (· ≠ [])

/-- The grammar that declarations stand for. How often the empty word is written in an alternative
is left open. -/
structure Describes (ds : List Declaration) (g : Grammar) : Prop where
  /-- The nonterminals are the left sides in order of first declaration. -/
  names : g.names = (ds.map Declaration.left).eraseDups
  /-- The start symbol is the first of them. -/
  start : g.names.head? = some g.start
  /-- The alternatives of a nonterminal are those of all its declarations, in order. -/
  alternatives : ∀ name, (g.alternatives name).map eraseEpsilon
    = (declaredFor ds name).map fun tokens => eraseEpsilon (tokens.map (symbolOf g.names))

/-- Which of the three results declarations have. -/
structure Loads (ds : List Declaration) (result : Except LoadError Grammar) : Prop where
  /-- The first declaration with the token `$` is reported. -/
  reserved : ∀ n, result = .error (.reservedSymbol n) ↔
    ∃ before d after, ds = before ++ d :: after ∧ (∀ e ∈ before, ¬ HasToken e "$") ∧
      HasToken d "$" ∧ d.number = n
  /-- If there is none, the lack of tokens is reported. -/
  malformed : result = .error .malformed ↔
    ∀ d ∈ ds, ¬ HasToken d "$" ∧ ∀ tokens ∈ d.right, tokens = []
  /-- If there is a token, the declarations have a grammar. -/
  ok : (∀ d ∈ ds, ¬ HasToken d "$") → (∃ d ∈ ds, ∃ tokens ∈ d.right, tokens ≠ []) →
    ∃ g, result = .ok g ∧ Describes ds g

variable {ds : List Declaration} {d : Declaration} {g : Grammar} {token name : String}
  {lexemes : List String} {text : String}

/-! ## The reader -/

/-- The result of the reader, given the declarations. -/
def load (ds : List Declaration) : Except LoadError Grammar :=
  match ds.find? Declaration.usesEndMarker with
  | some d => .error (.reservedSymbol d.number)
  | none =>
    match rulesOf ds with
    | [] => .error .malformed
    | first :: rest =>
      if (first :: rest).all (·.alternatives.isEmpty) then .error .malformed
      else .ok { rules := first :: rest, start := first.name }

theorem ofText_eq_load (text : String) :
    Grammar.ofText text = load (Declaration.ofText text.toList) := rfl

theorem usesEndMarker_iff : d.usesEndMarker ↔ HasToken d "$" := by
  simp [Declaration.usesEndMarker, HasToken]

theorem load_eq_reserved_iff {n : Nat} :
    load ds = .error (.reservedSymbol n) ↔
      ∃ d, ds.find? Declaration.usesEndMarker = some d ∧ d.number = n := by
  unfold load
  split
  next d hd => simp [hd]
  next hnone =>
    simp only [hnone, reduceCtorEq, false_and, exists_false, iff_false]
    split
    · simp
    · split <;> simp

theorem load_eq_malformed_iff :
    load ds = .error .malformed ↔ ds.find? Declaration.usesEndMarker = none ∧
      ∀ r ∈ rulesOf ds, r.alternatives = [] := by
  unfold load
  split
  next d hd => simp [hd]
  next hnone =>
    split
    next hnil => simp [hnone, hnil]
    next first rest hrules =>
      rw [hrules]
      split
      next hall => simpa [hnone] using hall
      next hsome => simpa [hnone] using hsome

theorem load_eq_ok (hnone : ds.find? Declaration.usesEndMarker = none)
    (hsome : ∃ r ∈ rulesOf ds, r.alternatives ≠ []) :
    ∃ g, load ds = .ok g ∧ g.rules = rulesOf ds ∧ g.names.head? = some g.start := by
  obtain ⟨r, hr, hne⟩ := hsome
  obtain ⟨first, rest, hrules⟩ := List.exists_cons_of_ne_nil (List.ne_nil_of_mem hr)
  have hall : ¬ (first :: rest).all (·.alternatives.isEmpty) := fun hall =>
    hne (List.isEmpty_iff.1 (List.all_eq_true.1 hall r (hrules ▸ hr)))
  refine ⟨{ rules := first :: rest, start := first.name }, ?_, hrules.symm, rfl⟩
  simp only [load, hnone, hrules, hall]
  rfl

/-! ## Rules of declarations -/

theorem alternatives_declaration_eq_nil_iff {declared : List String} :
    d.alternatives declared = [] ↔ ∀ tokens ∈ d.right, tokens = [] := by
  simp [Declaration.alternatives, List.filter_eq_nil_iff]

/-- The rules have no alternative if the declarations have no token. -/
theorem forall_rulesOf_iff :
    (∀ r ∈ rulesOf ds, r.alternatives = []) ↔ ∀ d ∈ ds, ∀ tokens ∈ d.right, tokens = [] := by
  simp only [rulesOf, List.mem_map, forall_exists_index, and_imp, forall_apply_eq_imp_iff₂,
    List.flatMap_eq_nil_iff, List.mem_filter, alternatives_declaration_eq_nil_iff,
    List.mem_eraseDups, beq_iff_eq]
  exact ⟨fun h d hd => h d hd d hd rfl, fun h _ _ d hd _ => h d hd⟩

/-- The empty word in an alternative makes no difference beyond itself. -/
theorem eraseEpsilon_ofLexemes (declared lexemes : List String) :
    eraseEpsilon (Alternative.ofLexemes declared lexemes)
      = eraseEpsilon (lexemes.map (Symbol.ofLexeme declared)) := by
  simp only [Alternative.ofLexemes]
  split
  · simp [eraseEpsilon]
  · rfl

theorem symbolOf_eq {declared : List String} (h : ∀ name ∈ declared, ¬ SpellsEpsilon name)
    (token : String) : symbolOf declared token = Symbol.ofLexeme declared token := by
  unfold symbolOf Symbol.ofLexeme
  by_cases hdeclared : token ∈ declared
  · have hnot : ¬ (token = "ε" ∨ token = "epsilon") := h token hdeclared
    simp [hdeclared, hnot]
  · simp [hdeclared]

theorem alternatives_of_rules_eq (hrules : g.rules = rulesOf ds) (name : String) :
    g.alternatives name = (ds.filter (·.left == name)).flatMap (·.alternatives g.names) := by
  have hnames := names_of_rules_eq hrules
  by_cases hname : name ∈ g.names
  · have hrule : (⟨name, (ds.filter (·.left == name)).flatMap (·.alternatives g.names)⟩ : Rule)
        ∈ g.rules := by
      rw [hrules, rulesOf, ← hnames]
      exact List.mem_map_of_mem hname
    exact alternatives_of_mem (hnames ▸ nodup_eraseDups _) hrule
  · have hnone : ds.filter (·.left == name) = [] := by
      rw [hnames, List.mem_eraseDups, List.mem_map] at hname
      exact List.filter_eq_nil_iff.2 fun d hd heq => hname ⟨d, hd, eq_of_beq heq⟩
    rw [alternatives_eq_nil hname, hnone]
    rfl

theorem describes (hleft : ∀ d ∈ ds, ¬ SpellsEpsilon d.left) (hrules : g.rules = rulesOf ds)
    (hstart : g.names.head? = some g.start) : Describes ds g := by
  have hnames := names_of_rules_eq hrules
  have hdeclared : ∀ name ∈ g.names, ¬ SpellsEpsilon name := by
    intro name hname
    obtain ⟨d, hd, rfl⟩ := List.mem_map.1 (List.mem_eraseDups.1 (hnames ▸ hname))
    exact hleft d hd
  refine ⟨hnames, hstart, fun name => ?_⟩
  rw [alternatives_of_rules_eq hrules, declaredFor, List.filter_flatMap, List.map_flatMap,
    List.map_flatMap]
  have hsymbols : symbolOf g.names = Symbol.ofLexeme g.names := funext (symbolOf_eq hdeclared)
  have hkept : (fun tokens : List String => !tokens.isEmpty) = (decide <| · ≠ []) := by
    funext tokens
    cases tokens <;> rfl
  simp only [Declaration.alternatives, List.map_map, Function.comp_def, eraseEpsilon_ofLexemes,
    hsymbols, hkept]
  rfl

/-- The result of the reader is that of the declarations. -/
theorem loads (hleft : ∀ d ∈ ds, ¬ SpellsEpsilon d.left) : Loads ds (load ds) where
  reserved n := by
    simp only [load_eq_reserved_iff, List.find?_eq_some_iff_append, Bool.not_eq_true',
      ← Bool.not_eq_true, usesEndMarker_iff]
    constructor
    · rintro ⟨d, ⟨hd, before, after, hds, hbefore⟩, hn⟩
      exact ⟨before, d, after, hds, hbefore, hd, hn⟩
    · rintro ⟨before, d, after, hds, hbefore, hd, hn⟩
      exact ⟨d, ⟨hd, before, after, hds, hbefore⟩, hn⟩
  malformed := by
    simp only [load_eq_malformed_iff, forall_rulesOf_iff, List.find?_eq_none, usesEndMarker_iff]
    exact forall₂_and.symm
  ok hnone hsome := by
    have hfind : ds.find? Declaration.usesEndMarker = none := by
      simpa only [List.find?_eq_none, usesEndMarker_iff] using hnone
    have hrule : ∃ r ∈ rulesOf ds, r.alternatives ≠ [] := by
      by_contra hall
      obtain ⟨d, hd, tokens, htokens, hne⟩ := hsome
      refine hne (forall_rulesOf_iff.1 (fun r hr => ?_) d hd tokens htokens)
      by_contra hr'
      exact hall ⟨r, hr, hr'⟩
    obtain ⟨g, hg, hrules, hstart⟩ := load_eq_ok hfind hrule
    exact ⟨g, hg, describes hleft hrules hstart⟩

/-! ## What the result depends on -/

/-- The alternatives of some declarations, each with its left side. -/
def choices (ds : List Declaration) : List (String × List String) :=
  ds.flatMap fun d => d.right.map fun tokens => (d.left, tokens)

theorem mem_choices {c : String × List String} :
    c ∈ choices ds ↔ ∃ d ∈ ds, c.1 = d.left ∧ c.2 ∈ d.right := by
  obtain ⟨left, tokens⟩ := c
  simp only [choices, List.mem_flatMap, List.mem_map, Prod.mk.injEq]
  grind

theorem find?_usesEndMarker_eq_none_iff :
    ds.find? Declaration.usesEndMarker = none ↔ ∀ c ∈ choices ds, "$" ∉ c.2 := by
  simp only [List.find?_eq_none, usesEndMarker_iff, HasToken, mem_choices]
  exact ⟨fun h c ⟨d, hd, _, hc⟩ htoken => h d hd ⟨c.2, hc, htoken⟩,
    fun h d hd ⟨tokens, htokens, htoken⟩ => h (d.left, tokens) ⟨d, hd, rfl, htokens⟩ htoken⟩

theorem eraseDups_replicate {α : Type} [BEq α] [LawfulBEq α] (n : Nat) (x : α) :
    (List.replicate (n + 1) x).eraseDups = [x] := by
  have hnone : (List.replicate n x).filter (fun y => !y == x) = [] := by simp
  rw [List.replicate_succ, List.eraseDups_cons, hnone, List.eraseDups_nil]

/-- A left side counts once, however many alternatives it has. -/
theorem eraseDups_fst_choices (h : ∀ d ∈ ds, d.right ≠ []) :
    ((choices ds).map Prod.fst).eraseDups = (ds.map Declaration.left).eraseDups := by
  induction ds using List.reverseRecOn with
  | nil => rfl
  | append_singleton ds d ih =>
    have ih := ih fun e he => h e (List.mem_append_left _ he)
    obtain ⟨tokens, right, hright⟩ := List.exists_cons_of_ne_nil (h d (by simp))
    have hlast : (choices [d]).map Prod.fst = List.replicate (right.length + 1) d.left := by
      simp [choices, hright, Function.comp_def, List.map_const', List.replicate_succ]
    have hmem : ∀ name, name ∈ (choices ds).map Prod.fst ↔ name ∈ ds.map Declaration.left := by
      intro name
      rw [← List.mem_eraseDups, ih, List.mem_eraseDups]
    have hsplit : choices (ds ++ [d]) = choices ds ++ choices [d] := List.flatMap_append
    have hremove : ∀ names : List String, names.removeAll ((choices ds).map Prod.fst)
        = names.removeAll (ds.map Declaration.left) := fun names =>
      List.filter_congr fun name _ => by simp only [List.elem_eq_mem, hmem]
    have hone : [d].map Declaration.left = List.replicate (0 + 1) d.left := rfl
    rw [hsplit, List.map_append, List.map_append, List.eraseDups_append, List.eraseDups_append, ih,
      hlast, hremove, hone]
    simp only [List.removeAll, List.filter_replicate]
    split
    · rw [eraseDups_replicate, eraseDups_replicate]
    · rfl

theorem choices_filter (ds : List Declaration) (name : String) :
    (choices ds).filter (·.1 == name) = choices (ds.filter (·.left == name)) := by
  induction ds with
  | nil => rfl
  | cons d ds ih =>
    have hcons : ∀ ds, choices (d :: ds) = d.right.map (fun tokens => (d.left, tokens))
        ++ choices ds := fun _ => rfl
    rw [hcons, List.filter_append, ih, List.filter_map]
    by_cases hd : d.left = name
    · simp [hd, hcons, Function.comp_def]
    · simp [hd, Function.comp_def]

theorem flatMap_alternatives (declared : List String) (ds : List Declaration) :
    ds.flatMap (·.alternatives declared)
      = ((choices ds).filter (!·.2.isEmpty)).map fun c => Alternative.ofLexemes declared c.2 := by
  simp only [choices, List.filter_flatMap, List.map_flatMap, List.filter_map, List.map_map]
  rfl

/-- The rules depend on the alternatives with their left sides only. -/
theorem rulesOf_eq (h : ∀ d ∈ ds, d.right ≠ []) :
    rulesOf ds = ((choices ds).map Prod.fst).eraseDups.map fun name =>
      ⟨name, (((choices ds).filter (·.1 == name)).filter (!·.2.isEmpty)).map fun c =>
        Alternative.ofLexemes ((choices ds).map Prod.fst).eraseDups c.2⟩ := by
  rw [eraseDups_fst_choices h, rulesOf]
  refine List.map_congr_left fun name _ => ?_
  rw [choices_filter, flatMap_alternatives]

/-- The alternatives with their left sides decide about the result, but for the number in an
error. -/
theorem unnumbered_load_eq {ds' : List Declaration} (h : ∀ d ∈ ds, d.right ≠ [])
    (h' : ∀ d ∈ ds', d.right ≠ []) (hchoices : choices ds = choices ds') :
    (load ds).mapError LoadError.unnumbered = (load ds').mapError LoadError.unnumbered := by
  have hrules : rulesOf ds = rulesOf ds' := by rw [rulesOf_eq h, rulesOf_eq h', hchoices]
  have hfind : ds.find? Declaration.usesEndMarker = none ↔
      ds'.find? Declaration.usesEndMarker = none := by
    simp only [find?_usesEndMarker_eq_none_iff, hchoices]
  unfold load
  cases hd : ds.find? Declaration.usesEndMarker with
  | none => simp only [hfind.1 hd, hrules]
  | some d =>
    cases hd' : ds'.find? Declaration.usesEndMarker with
    | none => simp [hfind.2 hd'] at hd
    | some d' => rfl

/-! ## Texts -/

section Texts

variable {piece left right : List Char} {pieces : List (List Char)} {number : Nat}

/-- The alternatives of a piece with their left side, none if it is skipped. -/
def choicesOf (piece : List Char) : List (String × List String) :=
  choices (Declaration.ofPiece? 0 piece).toList

theorem IsDeclaration.choicesOf_eq (h : IsDeclaration piece left right) :
    choicesOf piece = (alternatives right).map fun tokens => (String.ofList left, tokens) := by
  rw [choicesOf, h.ofPiece?_eq]
  exact List.append_nil _

theorem choicesOf_eq_nil (h : ∀ left right, ¬ IsDeclaration piece left right) :
    choicesOf piece = [] := by
  rw [choicesOf, ofPiece?_eq_none_iff.2 h]
  rfl

theorem Reads.choices_eq (h : Reads number pieces ds) :
    choices ds = pieces.flatMap choicesOf := by
  induction h with
  | nil => rfl
  | declaration h _ ih =>
    rw [List.flatMap_cons, h.choicesOf_eq, ← ih]
    rfl
  | skip h _ ih => rw [List.flatMap_cons, choicesOf_eq_nil h, ← ih, List.nil_append]

theorem Reads.right_ne_nil (h : Reads number pieces ds) : ∀ d ∈ ds, d.right ≠ [] := by
  induction h with
  | nil => simp
  | declaration _ _ ih => exact List.forall_mem_cons.2 ⟨alternatives_ne_nil _, ih⟩
  | skip _ _ ih => exact ih

/-- Texts whose pieces have the same alternatives with the same left sides have the same result, but
for the number in an error. -/
theorem unnumbered_ofText_eq {other : String}
    (h : (text.toList.splitOn ';').flatMap choicesOf
      = (other.toList.splitOn ';').flatMap choicesOf) :
    (Grammar.ofText text).mapError LoadError.unnumbered
      = (Grammar.ofText other).mapError LoadError.unnumbered := by
  have hreads := reads_ofText.2 (Eq.refl (Declaration.ofText text.toList))
  have hother := reads_ofText.2 (Eq.refl (Declaration.ofText other.toList))
  rw [ofText_eq_load, ofText_eq_load]
  refine unnumbered_load_eq hreads.right_ne_nil hother.right_ne_nil ?_
  rw [hreads.choices_eq, hother.choices_eq, h]

/-- The reader reads exactly the notation: a text has its declarations and no others, and they
decide about the result. More pieces that are skipped, or two declarations in the place of one with
all their alternatives, change at most the number in an error. -/
theorem ofText_reads_notation (text : String) :
    (∃ ds, Reads 1 (text.toList.splitOn ';') ds ∧
      (∀ ds', Reads 1 (text.toList.splitOn ';') ds' → ds' = ds) ∧
      ((∀ d ∈ ds, ¬ SpellsEpsilon d.left) → Loads ds (Grammar.ofText text))) ∧
    (∀ (other : String) (before skipped after : List (List Char)),
      text.toList.splitOn ';' = before ++ after →
      other.toList.splitOn ';' = before ++ skipped ++ after →
      (∀ piece ∈ skipped, ∀ left right, ¬ IsDeclaration piece left right) →
      (Grammar.ofText other).mapError LoadError.unnumbered
        = (Grammar.ofText text).mapError LoadError.unnumbered) ∧
    ∀ (other : String) (before after : List (List Char)) (lead left x y : List Char),
      IsDeclaration (lead ++ '-' :: '>' :: (x ++ '|' :: y)) left (x ++ '|' :: y) →
      text.toList.splitOn ';' = before ++ (lead ++ '-' :: '>' :: (x ++ '|' :: y)) :: after →
      other.toList.splitOn ';'
        = before ++ (lead ++ '-' :: '>' :: x) :: (lead ++ '-' :: '>' :: y) :: after →
      (Grammar.ofText other).mapError LoadError.unnumbered
        = (Grammar.ofText text).mapError LoadError.unnumbered := by
  refine ⟨⟨_, reads_ofText.2 rfl, fun ds' h => reads_ofText.1 h, fun hleft => ?_⟩, ?_, ?_⟩
  · rw [ofText_eq_load]
    exact loads hleft
  · intro other before skipped after htext hother hskipped
    have hnone : skipped.flatMap choicesOf = [] :=
      List.flatMap_eq_nil_iff.2 fun piece hpiece => choicesOf_eq_nil (hskipped piece hpiece)
    apply unnumbered_ofText_eq
    rw [htext, hother, List.flatMap_append, List.flatMap_append, List.flatMap_append, hnone,
      List.append_nil]
  · intro other before after lead left x y h htext hother
    have hx := h.of_isInfix (List.prefix_append x _).isInfix
    have hy := h.of_isInfix ((List.suffix_cons '|' y).trans (List.suffix_append x _)).isInfix
    apply unnumbered_ofText_eq
    simp only [htext, hother, List.flatMap_append, List.flatMap_cons, h.choicesOf_eq,
      hx.choicesOf_eq, hy.choicesOf_eq, alternatives_append, List.map_append, List.append_assoc]

end Texts

/-- A text with skipped pieces, a nonterminal that is declared twice, a forward reference, a lone
prime and an alternative without tokens. Then one whose second piece has the reserved token, also
with another piece put in, and one whose alternatives are shared out to two declarations. -/
theorem ofText_reads_notation_of_text :
    (∃ g, Grammar.ofText "no; S -> T b | '; ; S -> ε T; T -> | c" = .ok g ∧ g.names = ["S", "T"] ∧
      (g.alternatives "S").map eraseEpsilon
        = [[.nonterminal "T", .terminal "b"], [.nonterminal "T"]]) ∧
    Grammar.ofText "; S -> a | $; T -> $" = .error (.reservedSymbol 2) ∧
    (Grammar.ofText "; X Y -> a; S -> a | $; T -> $").mapError LoadError.unnumbered
      = (Grammar.ofText "; S -> a | $; T -> $").mapError LoadError.unnumbered ∧
    (Grammar.ofText "S -> a ;S -> b c").mapError LoadError.unnumbered
      = (Grammar.ofText "S -> a | b c").mapError LoadError.unnumbered := by
  obtain ⟨⟨ds, hds, -, hloads⟩, -, -⟩ :=
    ofText_reads_notation "no; S -> T b | '; ; S -> ε T; T -> | c"
  obtain ⟨⟨es, hes, -, hloads'⟩, hinsert, -⟩ := ofText_reads_notation "; S -> a | $; T -> $"
  obtain ⟨-, -, hshare⟩ := ofText_reads_notation "S -> a | b c"
  have hds' : ds = [⟨2, "S", [["T", "b"], []]⟩, ⟨4, "S", [["ε", "T"]]⟩, ⟨5, "T", [[], ["c"]]⟩] :=
    (reads_ofText.1 hds).trans (by set_option maxRecDepth 2000 in rfl)
  have hes' : es = [⟨2, "S", [["a"], ["$"]]⟩, ⟨3, "T", [["$"]]⟩] :=
    (reads_ofText.1 hes).trans (by set_option maxRecDepth 2000 in rfl)
  subst hds' hes'
  refine ⟨?_, ?_, ?_, ?_⟩
  · obtain ⟨g, hg, hdescribes⟩ :=
      (hloads (by simp [SpellsEpsilon])).ok (by simp [HasToken]) (by simp)
    have hnames : g.names = ["S", "T"] := hdescribes.names.trans (by decide)
    have halternatives := hdescribes.alternatives "S"
    rw [hnames] at halternatives
    exact ⟨g, hg, hnames, halternatives.trans (by decide)⟩
  · exact ((hloads' (by simp [SpellsEpsilon])).reserved 2).2
      ⟨[], _, _, rfl, by simp, by simp [HasToken], rfl⟩
  · have hskipped : Declaration.ofPiece? 0 " X Y -> a".toList = none := by rfl
    refine hinsert _ [[]] [" X Y -> a".toList] [" S -> a | $".toList, " T -> $".toList] rfl rfl ?_
    exact List.forall_mem_singleton.2 (ofPiece?_eq_none_iff.1 hskipped)
  · have hdeclaration : IsDeclaration "S -> a | b c".toList "S".toList " a | b c".toList :=
      isDeclaration_iff.2 ⟨"S ".toList, by rfl, by rfl⟩
    exact hshare _ [] [] "S ".toList "S".toList " a ".toList " b c".toList hdeclaration rfl rfl

end Notation

end PredictiveParsing
