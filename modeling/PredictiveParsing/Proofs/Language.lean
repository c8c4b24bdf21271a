import Mathlib.Computability.Language
import Mathlib.Order.CompletePartialOrder
import PredictiveParsing.Proofs.Derivation

/-!
# The languages of a grammar

Every form has a language: the words that it derives when all `epsilon` symbols are erased. The
languages of the nonterminals determine those of all forms, since the language of a form is the
product of the languages of its symbols. Among all families of languages that satisfy the rules of a
grammar, that of the grammar is the least one, and two grammars are compared by this property.

## Main definitions

* `Grammar.languageOf`, `Grammar.language`: the language of a form and of the start symbol.
* `Grammar.family`: the languages of the nonterminals.
* `meaning`: the language of a form, given those of the nonterminals.
* `Grammar.Satisfies`: a family of languages that is closed under the rules.
* `Grammar.Within`, `Grammar.Covers`: one grammar derives at most, or at least, what another does.

## Main statements

* `Grammar.languageOf_eq_meaning`: the language of a form is put together from its symbols.
* `Grammar.languageOf_le_meaning`: the languages of a grammar are the least ones that satisfy it.
-/

namespace PredictiveParsing

/-- The language of a symbol where `family` gives those of the nonterminals. The end marker is no
part of any word. -/
@[simp] def Symbol.meaning (family : String → Language String) : Symbol → Language String
  | .terminal a => {[a]}
  | .nonterminal name => family name
  | .epsilon => 1
  | .endMarker => 0

/-- The language of a form where `family` gives those of the nonterminals. -/
def meaning (family : String → Language String) (u : List Symbol) : Language String :=
  (u.map (Symbol.meaning family)).prod

section Meaning

variable {I J : String → Language String} {u v : List Symbol} {w : List String}

@[simp] theorem meaning_nil : meaning I [] = 1 := rfl

@[simp] theorem meaning_cons (s : Symbol) (u : List Symbol) :
    meaning I (s :: u) = s.meaning I * meaning I u := List.prod_cons

@[simp] theorem meaning_append (u v : List Symbol) :
    meaning I (u ++ v) = meaning I u * meaning I v := by
  simp [meaning]

@[simp] theorem meaning_eraseEpsilon (u : List Symbol) :
    meaning I (eraseEpsilon u) = meaning I u := by
  induction u with
  | nil => rfl
  | cons s u ih => cases s <;> simp [ih]

theorem mem_meaning_map_terminal (w : List String) : w ∈ meaning I (w.map .terminal) := by
  induction w with
  | nil => exact Language.nil_mem_one
  | cons a w ih =>
    rw [List.map_cons, meaning_cons]
    exact Language.append_mem_mul (a := [a]) (b := w) (Set.mem_singleton [a]) ih

/-- Larger languages of the nonterminals in a form give it a larger language. -/
theorem meaning_mono (h : ∀ name, .nonterminal name ∈ u → I name ≤ J name) :
    meaning I u ≤ meaning J u := by
  induction u with
  | nil => exact le_rfl
  | cons s u ih =>
    rw [meaning_cons, meaning_cons]
    refine mul_le_mul' ?_ (ih fun name hn => h name (List.mem_cons_of_mem _ hn))
    cases s with
    | nonterminal name => exact h name List.mem_cons_self
    | _ => exact le_rfl

theorem meaning_congr (h : ∀ name, .nonterminal name ∈ u → I name = J name) :
    meaning I u = meaning J u :=
  le_antisymm (meaning_mono fun name hn => (h name hn).le)
    (meaning_mono fun name hn => (h name hn).ge)

end Meaning

namespace Grammar

variable {g : Grammar} {I : String → Language String} {u v : List Symbol} {w : List String}

/-- The words that a form derives when all symbols for the empty word are erased. -/
def languageOf (g : Grammar) (u : List Symbol) : Language String :=
  {w | ∃ v, g.Derives u v ∧ eraseEpsilon v = w.map .terminal}

/-- The languages of the nonterminals of a grammar. -/
def family (g : Grammar) (name : String) : Language String := g.languageOf [.nonterminal name]

/-- The words that the start symbol derives. -/
def language (g : Grammar) : Language String := g.languageOf [.nonterminal g.start]

theorem Derives.languageOf_le (h : g.Derives u v) : g.languageOf v ≤ g.languageOf u :=
  fun _ ⟨x, hx, hw⟩ => ⟨x, h.trans hx, hw⟩

/-! ## The least family of languages -/

/-- A family of languages satisfies a grammar if each alternative has at most the words of its
nonterminal. -/
def Satisfies (g : Grammar) (family : String → Language String) : Prop :=
  ∀ name, ∀ p ∈ g.alternatives name, meaning family p ≤ family name

/-- A derivation makes the meaning of a form smaller. -/
theorem Satisfies.meaning_le (hI : g.Satisfies I) (h : g.Derives u v) :
    meaning I v ≤ meaning I u := by
  induction h with
  | refl => exact le_rfl
  | tail _ hstep ih =>
    refine le_trans ?_ ih
    obtain ⟨before, after, hp⟩ := hstep
    simp only [meaning_append, meaning_cons]
    exact mul_le_mul' le_rfl (mul_le_mul' (hI _ _ hp) le_rfl)

/-- The languages of a grammar are the least ones that satisfy it. -/
theorem languageOf_le_meaning (hI : g.Satisfies I) (u : List Symbol) :
    g.languageOf u ≤ meaning I u := by
  rintro w ⟨v, hv, hw⟩
  have := mem_meaning_map_terminal (I := I) w
  rw [← hw, meaning_eraseEpsilon] at this
  exact hI.meaning_le hv this

theorem family_le (hI : g.Satisfies I) (name : String) : g.family name ≤ I name := by
  simpa [family] using languageOf_le_meaning hI [.nonterminal name]

theorem meaning_family_le (g : Grammar) (u : List Symbol) :
    meaning g.family u ≤ g.languageOf u := by
  induction u with
  | nil =>
    rintro w rfl
    exact ⟨[], .refl [], rfl⟩
  | cons s u ih =>
    rw [meaning_cons]
    rintro _ ⟨a, ha, b, hb, rfl⟩
    obtain ⟨v, hv, hb⟩ := ih hb
    cases s with
    | terminal c =>
      obtain rfl := Set.mem_singleton_iff.1 ha
      exact ⟨.terminal c :: v, hv.append_left [.terminal c], by simp [hb]⟩
    | nonterminal name =>
      obtain ⟨x, hx, ha⟩ := ha
      exact ⟨x ++ v, hx.append hv, by simp [ha, hb]⟩
    | epsilon =>
      obtain rfl := (Language.mem_one a).1 ha
      exact ⟨.epsilon :: v, hv.append_left [.epsilon], by simp [hb]⟩
    | endMarker => exact absurd ha (Language.notMem_zero a)

/-- What an alternative derives, its nonterminal derives. -/
theorem languageOf_le_family {name : String} {p : Alternative} (h : p ∈ g.alternatives name) :
    g.languageOf p ≤ g.family name := (derives_nonterminal h).languageOf_le

theorem satisfies_family (g : Grammar) : g.Satisfies g.family :=
  fun _ p hp => (meaning_family_le g p).trans (languageOf_le_family hp)

/-- The language of a form is put together from those of its symbols. -/
theorem languageOf_eq_meaning (g : Grammar) (u : List Symbol) :
    g.languageOf u = meaning g.family u :=
  le_antisymm (languageOf_le_meaning g.satisfies_family u) (meaning_family_le g u)

theorem languageOf_append (g : Grammar) (u v : List Symbol) :
    g.languageOf (u ++ v) = g.languageOf u * g.languageOf v := by
  simp only [languageOf_eq_meaning, meaning_append]

theorem languageOf_cons_nonterminal (g : Grammar) (name : String) (u : List Symbol) :
    g.languageOf (.nonterminal name :: u) = g.family name * g.languageOf u :=
  languageOf_append g [.nonterminal name] u

theorem languageOf_nil (g : Grammar) : g.languageOf [] = 1 := by
  simp only [languageOf_eq_meaning, meaning_nil]

@[simp] theorem languageOf_eraseEpsilon (g : Grammar) (u : List Symbol) :
    g.languageOf (eraseEpsilon u) = g.languageOf u := by
  simp only [languageOf_eq_meaning, meaning_eraseEpsilon]

/-- A word of a nonterminal is a word of one of its alternatives. -/
theorem mem_family_iff {name : String} :
    w ∈ g.family name ↔ ∃ p ∈ g.alternatives name, w ∈ g.languageOf p := by
  constructor
  · rintro ⟨v, hv, hw⟩
    rcases derives_nonterminal_iff.1 hv with rfl | ⟨p, hp, hpv⟩
    · cases w <;> simp at hw
    · exact ⟨p, hp, v, hpv, hw⟩
  · rintro ⟨p, hp, hw⟩
    exact languageOf_le_family hp hw

/-- Another language for a nonterminal that is not in a form changes nothing. -/
theorem meaning_update_family {name : String} (h : .nonterminal name ∉ u)
    (L : Language String) : meaning (Function.update g.family name L) u = g.languageOf u := by
  rw [languageOf_eq_meaning]
  refine meaning_congr fun other hother => Function.update_of_ne ?_ ..
  rintro rfl
  exact h hother

/-! ## Two grammars -/

/-- `h` has the nonterminals of `g`, and each of them has at most the words that it has in `g`. -/
structure Within (h g : Grammar) : Prop where
  start : h.start = g.start
  names : g.names ⊆ h.names
  family_le : ∀ name ∈ g.names, h.family name ≤ g.family name

/-- `h` has the nonterminals of `g`, and each of them has at least the words that it has in `g`. -/
structure Covers (h g : Grammar) : Prop where
  start : h.start = g.start
  names : g.names ⊆ h.names
  le_family : ∀ name ∈ g.names, g.family name ≤ h.family name

theorem Within.refl (g : Grammar) : g.Within g := ⟨rfl, List.Subset.refl _, fun _ _ => le_rfl⟩

theorem Covers.refl (g : Grammar) : g.Covers g := ⟨rfl, List.Subset.refl _, fun _ _ => le_rfl⟩

theorem Within.trans {f h : Grammar} (hf : f.Within h) (hg : h.Within g) : f.Within g where
  start := hf.start.trans hg.start
  names := fun _ hn => hf.names (hg.names hn)
  family_le name hn := (hf.family_le name (hg.names hn)).trans (hg.family_le name hn)

theorem Covers.trans {f h : Grammar} (hf : f.Covers h) (hg : h.Covers g) : f.Covers g where
  start := hf.start.trans hg.start
  names := fun _ hn => hf.names (hg.names hn)
  le_family name hn := (hg.le_family name hn).trans (hf.le_family name (hg.names hn))

/-- A grammar with fewer alternatives has fewer words. -/
theorem family_le_of_subset {h : Grammar}
    (hsub : ∀ name, h.alternatives name ⊆ g.alternatives name) (name : String) :
    h.family name ≤ g.family name :=
  family_le (fun other _ hp => g.satisfies_family other _ (hsub other hp)) name

/-- A grammar with a new nonterminal has no new words if the old languages, with some language for
the new nonterminal, satisfy it. -/
theorem Within.of_satisfies {h : Grammar} {fresh : String} {L : Language String}
    (hstart : h.start = g.start) (hnames : g.names ⊆ h.names) (hfresh : fresh ∉ g.names)
    (hsat : h.Satisfies (Function.update g.family fresh L)) : h.Within g where
  start := hstart
  names := hnames
  family_le name hname := by
    have hne : name ≠ fresh := by
      rintro rfl
      exact hfresh hname
    have := Grammar.family_le hsat name
    rwa [Function.update_of_ne hne] at this

/-- A grammar has all words of another one if its languages satisfy the other. -/
theorem Covers.of_satisfies {h : Grammar} (hstart : h.start = g.start)
    (hnames : g.names ⊆ h.names) (hsat : g.Satisfies h.family) : h.Covers g where
  start := hstart
  names := hnames
  le_family name _ := Grammar.family_le hsat name

theorem Within.language_le {h : Grammar} (hh : h.Within g) (hg : g.start ∈ g.names) :
    h.language ≤ g.language := by
  have := hh.family_le g.start hg
  unfold language
  rwa [hh.start]

theorem Covers.le_language {h : Grammar} (hh : h.Covers g) (hg : g.start ∈ g.names) :
    g.language ≤ h.language := by
  have := hh.le_family g.start hg
  unfold language
  rwa [hh.start]

end Grammar

end PredictiveParsing
