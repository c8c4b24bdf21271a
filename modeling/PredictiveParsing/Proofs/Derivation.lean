import Mathlib.Logic.Relation
import PredictiveParsing.Grammar.Basic

/-!
# Derivations

A form is a sequence of symbols. One form derives another if nonterminals in it are replaced by
their alternatives, any number of times and anywhere. The symbol `epsilon` stays in a form until all
of them are erased at the end.

## Main definitions

* `eraseEpsilon`: a form without the symbols for the empty word.
* `Grammar.Rewrites`: one nonterminal of a form is replaced.
* `Grammar.Derives`: any number of replacements.

## Main statements

* `Grammar.Derives.append`: the parts of a form derive independently of each other.
* `Grammar.Derives.split`: what a form derives is put together from what its parts derive.
-/

namespace PredictiveParsing

/-- A form without the symbols that stand for the empty word. -/
def eraseEpsilon (u : List Symbol) : List Symbol := u.filter (· != .epsilon)

@[simp] theorem eraseEpsilon_nil : eraseEpsilon [] = [] := rfl

@[simp] theorem eraseEpsilon_append (u v : List Symbol) :
    eraseEpsilon (u ++ v) = eraseEpsilon u ++ eraseEpsilon v := List.filter_append ..

@[simp] theorem eraseEpsilon_cons_epsilon (u : List Symbol) :
    eraseEpsilon (.epsilon :: u) = eraseEpsilon u := rfl

@[simp] theorem eraseEpsilon_cons_terminal (a : String) (u : List Symbol) :
    eraseEpsilon (.terminal a :: u) = .terminal a :: eraseEpsilon u := rfl

@[simp] theorem eraseEpsilon_cons_nonterminal (name : String) (u : List Symbol) :
    eraseEpsilon (.nonterminal name :: u) = .nonterminal name :: eraseEpsilon u := rfl

@[simp] theorem eraseEpsilon_cons_endMarker (u : List Symbol) :
    eraseEpsilon (.endMarker :: u) = .endMarker :: eraseEpsilon u := rfl

@[simp] theorem eraseEpsilon_map_terminal (w : List String) :
    eraseEpsilon (w.map .terminal) = w.map .terminal := by
  induction w with
  | nil => rfl
  | cons a w ih => simp [ih]

namespace Grammar

variable {g : Grammar} {u v w x y : List Symbol}

/-- One nonterminal of a form is replaced by one of its alternatives. -/
inductive Rewrites (g : Grammar) : List Symbol → List Symbol → Prop
  | replace (before after : List Symbol) {name : String} {p : Alternative}
      (h : p ∈ g.alternatives name) :
      Rewrites g (before ++ .nonterminal name :: after) (before ++ (p ++ after))

/-- Nonterminals of a form are replaced any number of times. -/
abbrev Derives (g : Grammar) : List Symbol → List Symbol → Prop :=
  Relation.ReflTransGen g.Rewrites

/-! ## One replacement -/

theorem Rewrites.append_left (h : g.Rewrites u v) (x : List Symbol) :
    g.Rewrites (x ++ u) (x ++ v) := by
  obtain ⟨before, after, h⟩ := h
  simpa using Rewrites.replace (x ++ before) after h

theorem Rewrites.append_right (h : g.Rewrites u v) (x : List Symbol) :
    g.Rewrites (u ++ x) (v ++ x) := by
  obtain ⟨before, after, h⟩ := h
  simpa using Rewrites.replace before (after ++ x) h

theorem not_rewrites_nil : ¬ g.Rewrites [] v := by
  generalize hu : ([] : List Symbol) = u
  rintro ⟨before, after, -⟩
  simp at hu

/-- The replaced nonterminal stands first, or the first symbol stays. -/
theorem rewrites_cons_iff {s : Symbol} :
    g.Rewrites (s :: u) v ↔
      (∃ name, s = .nonterminal name ∧ ∃ p ∈ g.alternatives name, v = p ++ u) ∨
        ∃ u', g.Rewrites u u' ∧ v = s :: u' := by
  constructor
  · generalize hx : s :: u = x
    rintro ⟨before, after, hp⟩
    cases before with
    | nil =>
      obtain ⟨rfl, rfl⟩ := List.cons.inj hx
      exact .inl ⟨_, rfl, _, hp, rfl⟩
    | cons _ before =>
      obtain ⟨rfl, rfl⟩ := List.cons.inj hx
      exact .inr ⟨_, .replace before after hp, rfl⟩
  · rintro (⟨name, rfl, p, hp, rfl⟩ | ⟨u', hu, rfl⟩)
    · exact .replace [] u hp
    · exact hu.append_left [s]

theorem Rewrites.split (h : g.Rewrites (u ++ v) x) :
    (∃ u', g.Rewrites u u' ∧ x = u' ++ v) ∨ ∃ v', g.Rewrites v v' ∧ x = u ++ v' := by
  induction u generalizing x with
  | nil => exact .inr ⟨x, h, rfl⟩
  | cons s u ih =>
    rcases rewrites_cons_iff.1 h with ⟨name, rfl, p, hp, rfl⟩ | ⟨x', hx, rfl⟩
    · exact .inl ⟨p ++ u, .replace [] u hp, by simp⟩
    · rcases ih hx with ⟨u', hu, rfl⟩ | ⟨v', hv, rfl⟩
      · exact .inl ⟨s :: u', hu.append_left [s], rfl⟩
      · exact .inr ⟨v', hv, rfl⟩

/-! ## Any number of replacements -/

theorem Derives.refl (u : List Symbol) : g.Derives u u := Relation.ReflTransGen.refl

theorem Derives.trans (h : g.Derives u v) (h' : g.Derives v w) : g.Derives u w :=
  Relation.ReflTransGen.trans h h'

theorem Rewrites.derives (h : g.Rewrites u v) : g.Derives u v := Relation.ReflTransGen.single h

theorem Derives.append_left (h : g.Derives u v) (x : List Symbol) :
    g.Derives (x ++ u) (x ++ v) := by
  induction h with
  | refl => exact .refl _
  | tail _ hstep ih => exact ih.trans (hstep.append_left x).derives

theorem Derives.append_right (h : g.Derives u v) (x : List Symbol) :
    g.Derives (u ++ x) (v ++ x) := by
  induction h with
  | refl => exact .refl _
  | tail _ hstep ih => exact ih.trans (hstep.append_right x).derives

/-- The parts of a form derive independently of each other. -/
theorem Derives.append (h : g.Derives u v) (h' : g.Derives x y) : g.Derives (u ++ x) (v ++ y) :=
  (h.append_right x).trans (h'.append_left v)

/-- What a form derives is put together from what its parts derive. -/
theorem Derives.split (h : g.Derives (u ++ v) x) :
    ∃ u' v', g.Derives u u' ∧ g.Derives v v' ∧ x = u' ++ v' := by
  generalize hw : u ++ v = w at h
  induction h with
  | refl => exact ⟨u, v, .refl u, .refl v, hw.symm⟩
  | tail _ hstep ih =>
    obtain ⟨u', v', hu, hv, rfl⟩ := ih
    rcases hstep.split with ⟨u'', hu', rfl⟩ | ⟨v'', hv', rfl⟩
    · exact ⟨u'', v', hu.trans hu'.derives, hv, rfl⟩
    · exact ⟨u', v'', hu, hv.trans hv'.derives, rfl⟩

/-- The first symbol of a form is replaced by an alternative. -/
theorem derives_cons {name : String} {p : Alternative} (h : p ∈ g.alternatives name)
    (u : List Symbol) : g.Derives (.nonterminal name :: u) (p ++ u) :=
  (Rewrites.replace [] u h).derives

theorem derives_nonterminal {name : String} {p : Alternative} (h : p ∈ g.alternatives name) :
    g.Derives [.nonterminal name] p := by
  simpa using derives_cons h []

/-- A derivation from a single nonterminal does nothing or starts with one of its alternatives. -/
theorem derives_nonterminal_iff {name : String} :
    g.Derives [.nonterminal name] v ↔
      v = [.nonterminal name] ∨ ∃ p ∈ g.alternatives name, g.Derives p v := by
  constructor
  · intro h
    rcases Relation.ReflTransGen.cases_head h with rfl | ⟨u, hstep, hrest⟩
    · exact .inl rfl
    · rcases rewrites_cons_iff.1 hstep with ⟨_, hname, p, hp, rfl⟩ | ⟨u', hu, -⟩
      · cases hname
        exact .inr ⟨p, hp, by simpa using hrest⟩
      · exact absurd hu not_rewrites_nil
  · rintro (rfl | ⟨p, hp, h⟩)
    · exact .refl _
    · exact (derives_nonterminal hp).trans h

/-- A nonterminal without alternatives derives nothing but itself. -/
theorem eq_of_derives_of_alternatives_eq_nil {name : String} (h : g.alternatives name = [])
    (hv : g.Derives [.nonterminal name] v) : v = [.nonterminal name] := by
  rcases derives_nonterminal_iff.1 hv with hv | ⟨p, hp, -⟩
  · exact hv
  · simp [h] at hp

end Grammar

end PredictiveParsing
