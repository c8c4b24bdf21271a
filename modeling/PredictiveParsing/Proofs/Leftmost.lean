import PredictiveParsing.Proofs.Language

/-!
# Leftmost derivations

In a leftmost derivation it is always the first nonterminal of a form that is replaced, so the
derivation is given by its list of replacements. Read from the other side, these are the
replacements that take apart a word from left to right, with the symbols that are still to come on a
stack.

## Main definitions

* `Grammar.Leftmost`: a leftmost derivation with its replacements.
* `Grammar.Parses`: the replacements that take apart a word.

## Main statements

* `Grammar.Leftmost.derives`: a leftmost derivation is a derivation.
* `Grammar.exists_parses`: every word of a form can be taken apart.
* `Grammar.parses_iff_leftmost`: the replacements that take apart a word are those of its leftmost
  derivations.
-/

namespace PredictiveParsing.Grammar

variable {g : Grammar} {u v w x : List Symbol} {es fs : List (String × Alternative)}
  {ws zs : List String}

/-- A leftmost derivation with its replacements: nonterminals with the alternatives that take their
places. No nonterminal stands before the one that is replaced. -/
inductive Leftmost (g : Grammar) :
    List Symbol → List (String × Alternative) → List Symbol → Prop
  | refl (u : List Symbol) : Leftmost g u [] u
  | replace {before after v : List Symbol} {name : String} {p : Alternative}
      {es : List (String × Alternative)} (hbefore : ∀ s ∈ before, s.nonterminal? = none)
      (hp : p ∈ g.alternatives name) (h : Leftmost g (before ++ (p ++ after)) es v) :
      Leftmost g (before ++ .nonterminal name :: after) ((name, p) :: es) v

theorem Leftmost.trans (h : g.Leftmost u es v) (h' : g.Leftmost v fs w) :
    g.Leftmost u (es ++ fs) w := by
  induction h with
  | refl u => exact h'
  | replace hbefore hp _ ih => exact .replace hbefore hp (ih h')

/-- One more replacement at the end of a leftmost derivation. -/
theorem Leftmost.snoc {before after : List Symbol} {name : String} {p : Alternative}
    (h : g.Leftmost u es (before ++ .nonterminal name :: after))
    (hbefore : ∀ s ∈ before, s.nonterminal? = none) (hp : p ∈ g.alternatives name) :
    g.Leftmost u (es ++ [(name, p)]) (before ++ (p ++ after)) :=
  h.trans (.replace hbefore hp (.refl _))

theorem Leftmost.derives (h : g.Leftmost u es v) : g.Derives u v := by
  induction h with
  | refl u => exact .refl u
  | replace _ hp _ ih => exact (Rewrites.replace _ _ hp).derives.trans ih

/-! ## Words taken apart -/

/-- The replacements that take apart a word, where the symbols of a stack are still to come, the
first one next. -/
inductive Parses (g : Grammar) :
    List (String × Alternative) → List Symbol → List String → Prop
  | nil : Parses g [] [] []
  | terminal {es : List (String × Alternative)} {a : String} {u : List Symbol} {ws : List String}
      (h : Parses g es u ws) : Parses g es (.terminal a :: u) (a :: ws)
  | epsilon {es : List (String × Alternative)} {u : List Symbol} {ws : List String}
      (h : Parses g es u ws) : Parses g es (.epsilon :: u) ws
  | nonterminal {es : List (String × Alternative)} {name : String} {p : Alternative}
      {u : List Symbol} {ws : List String} (hp : p ∈ g.alternatives name)
      (h : Parses g es (p ++ u) ws) : Parses g ((name, p) :: es) (.nonterminal name :: u) ws

theorem Parses.append (h : g.Parses es u ws) (h' : g.Parses fs v zs) :
    g.Parses (es ++ fs) (u ++ v) (ws ++ zs) := by
  induction h with
  | nil => exact h'
  | terminal _ ih => exact .terminal ih
  | epsilon _ ih => exact .epsilon ih
  | nonterminal hp _ ih => exact .nonterminal hp (by simpa using ih)

/-- The words that can be taken apart with a nonterminal on the stack. -/
def parsed (g : Grammar) (name : String) : Language String :=
  {ws | ∃ es, g.Parses es [.nonterminal name] ws}

theorem exists_parses_of_mem_meaning (h : ws ∈ meaning g.parsed u) : ∃ es, g.Parses es u ws := by
  induction u generalizing ws with
  | nil =>
    obtain rfl := (Language.mem_one ws).1 h
    exact ⟨[], .nil⟩
  | cons s u ih =>
    rw [meaning_cons] at h
    obtain ⟨a, ha, b, hb, rfl⟩ := h
    obtain ⟨fs, hfs⟩ := ih hb
    cases s with
    | terminal c =>
      obtain rfl := Set.mem_singleton_iff.1 ha
      exact ⟨fs, .terminal hfs⟩
    | nonterminal name =>
      obtain ⟨es, hes⟩ := ha
      exact ⟨es ++ fs, hes.append hfs⟩
    | epsilon =>
      obtain rfl := (Language.mem_one a).1 ha
      exact ⟨fs, .epsilon hfs⟩
    | endMarker => exact absurd ha (Language.notMem_zero a)

/-- Every word of a form can be taken apart. -/
theorem exists_parses (h : ws ∈ g.languageOf u) : ∃ es, g.Parses es u ws := by
  refine exists_parses_of_mem_meaning (languageOf_le_meaning (fun name p hp zs hzs => ?_) u h)
  obtain ⟨es, hes⟩ := exists_parses_of_mem_meaning hzs
  exact ⟨_, .nonterminal hp (by simpa using hes)⟩

/-! ## Two readings of the replacements -/

/-- Symbols that are no nonterminals can stand in front of a leftmost derivation. -/
theorem Leftmost.append_left (h : g.Leftmost u es v) (hx : ∀ s ∈ x, s.nonterminal? = none) :
    g.Leftmost (x ++ u) es (x ++ v) := by
  induction h with
  | refl u => exact .refl _
  | @replace before after v name p es hbefore hp _ ih =>
    rw [← List.append_assoc] at ih ⊢
    refine .replace (fun s hs => ?_) hp ih
    rcases List.mem_append.1 hs with hs | hs
    · exact hx s hs
    · exact hbefore s hs

/-- The replacements that take apart a word derive it. -/
theorem Parses.exists_leftmost (h : g.Parses es u ws) :
    ∃ v, g.Leftmost u es v ∧ eraseEpsilon v = ws.map .terminal := by
  induction h with
  | nil => exact ⟨[], .refl [], rfl⟩
  | @terminal es a u ws _ ih =>
    obtain ⟨v, hv, hws⟩ := ih
    exact ⟨.terminal a :: v, hv.append_left (x := [.terminal a]) (by simp [Symbol.nonterminal?]),
      by simp [hws]⟩
  | @epsilon es u ws _ ih =>
    obtain ⟨v, hv, hws⟩ := ih
    exact ⟨.epsilon :: v, hv.append_left (x := [.epsilon]) (by simp [Symbol.nonterminal?]),
      by simp [hws]⟩
  | nonterminal hp _ ih =>
    obtain ⟨v, hv, hws⟩ := ih
    exact ⟨v, .replace (List.forall_mem_nil _) hp hv, hws⟩

/-- A word is taken apart without replacements where it stands already. -/
theorem parses_of_eraseEpsilon (h : eraseEpsilon u = ws.map .terminal) : g.Parses [] u ws := by
  induction u generalizing ws with
  | nil =>
    obtain rfl : ws = [] := by simpa using h.symm
    exact .nil
  | cons s u ih =>
    cases s with
    | epsilon => exact .epsilon (ih h)
    | terminal a =>
      cases ws with
      | nil => simp at h
      | cons b ws =>
        obtain ⟨rfl, hrest⟩ : a = b ∧ eraseEpsilon u = ws.map .terminal := by simpa using h
        exact .terminal (ih hrest)
    | _ => cases ws <;> simp at h

/-- A replacement may be made later than in front of everything else: what stands before the
nonterminal is taken from the word first. -/
theorem Parses.replace {before after : List Symbol} {name : String} {p : Alternative}
    (hbefore : ∀ s ∈ before, s.nonterminal? = none) (hp : p ∈ g.alternatives name)
    (h : g.Parses es (before ++ (p ++ after)) ws) :
    g.Parses ((name, p) :: es) (before ++ .nonterminal name :: after) ws := by
  induction before generalizing ws with
  | nil => exact .nonterminal hp h
  | cons s before ih =>
    have hbefore' : ∀ s ∈ before, s.nonterminal? = none := fun s hs =>
      hbefore s (List.mem_cons_of_mem _ hs)
    cases h with
    | terminal h => exact .terminal (ih hbefore' h)
    | epsilon h => exact .epsilon (ih hbefore' h)
    | nonterminal =>
      have hs := hbefore _ List.mem_cons_self
      simp [Symbol.nonterminal?] at hs

theorem Leftmost.parses (h : g.Leftmost u es v) (hv : eraseEpsilon v = ws.map .terminal) :
    g.Parses es u ws := by
  induction h with
  | refl u => exact parses_of_eraseEpsilon hv
  | replace hbefore hp _ ih => exact .replace hbefore hp (ih hv)

/-- The replacements that take apart a word are those of its leftmost derivations. -/
theorem parses_iff_leftmost :
    g.Parses es u ws ↔ ∃ v, g.Leftmost u es v ∧ eraseEpsilon v = ws.map .terminal :=
  ⟨Parses.exists_leftmost, fun ⟨_, h, hv⟩ => h.parses hv⟩

end PredictiveParsing.Grammar
