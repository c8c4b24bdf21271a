import PredictiveParsing.Proofs.Notation
import PredictiveParsing.Proofs.Representation

/-!
# The name of the end marker

The reader looks for the token `$` on right sides, and where there is one it reports the name as
reserved. It does not look at left sides. So no terminal is ever spelled like a nonterminal, but the
end marker is, if `$` is declared. The changes of a grammar neither bring this about nor undo it:
they keep all nonterminals, and each new one has a prime in its name.

## Main statements

* `Grammar.reserved_ofText`: where the name `$` is reserved and where it is not.
-/

namespace PredictiveParsing

namespace Grammar

variable {g h : Grammar} {name : String}

/-- A nonterminal shares its name with a terminal just if it is spelled like the end marker. -/
theorem declares_of_mem_terminals {s : Symbol} (hs : s ∈ g.terminals) :
    g.declares s.name = true ↔ s = .endMarker ∧ "$" ∈ g.names := by
  rw [declares_iff]
  rcases mem_terminals.1 hs with rfl | ⟨a, rfl, -, ha⟩
  · exact ⟨fun hname => ⟨rfl, hname⟩, And.right⟩
  · exact ⟨fun hname => absurd hname ha, fun h => by simp at h⟩

open Notation

variable {text : String} {ds : List Declaration}

/-- The nonterminals of a text are its left sides. -/
theorem mem_names_ofText (hds : Reads 1 (text.toList.splitOn ';') ds) (hg : ofText text = .ok g) :
    name ∈ g.names ↔ ∃ d ∈ ds, d.left = name := by
  rw [names_of_rules_eq (ofText_eq_ok hg).2.1, ← reads_ofText.1 hds, List.mem_eraseDups,
    List.mem_map]

/-- The name `$` is reported as reserved if it is a token of a right side, and only then. If there
is no such token and the text is a grammar, then the end marker is a terminal of it, after any
changes. Among the terminals it is the only one that can have the name of a nonterminal, and it has
it if there is a declaration with the left side `$`. -/
theorem reserved_ofText (hds : Reads 1 (text.toList.splitOn ';') ds) :
    ((∃ d ∈ ds, HasToken d "$") ↔ ∃ n, ofText text = .error (.reservedSymbol n)) ∧
      ∀ g h, ofText text = .ok g → g.ChangesTo h →
        .endMarker ∈ h.terminals ∧
        ∀ s ∈ h.terminals,
          (h.declares s.name = true ↔ s = .endMarker ∧ ∃ d ∈ ds, d.left = "$") := by
  refine ⟨?_, fun g h hg hgh => ⟨mem_terminals.2 (.inl rfl), fun s hs => ?_⟩⟩
  · obtain rfl := reads_ofText.1 hds
    simp only [ofText_eq_load, load_eq_reserved_iff, ← usesEndMarker_iff]
    constructor
    · intro hused
      obtain ⟨d, hd⟩ := Option.isSome_iff_exists.1 (List.find?_isSome.2 hused)
      exact ⟨d.number, d, hd, rfl⟩
    · rintro ⟨n, d, hd, -⟩
      exact ⟨d, List.mem_of_find?_eq_some hd, List.find?_some hd⟩
  · rw [declares_of_mem_terminals hs, hgh.addsPrimed.mem_names_iff (by decide),
      mem_names_ofText hds hg]

/-- A text that declares `$` next to a longer token with this sign, after both changes. -/
theorem reserved_ofText_of_text :
    let g : Grammar :=
      { rules := [⟨"S", [[.nonterminal "S", .terminal "a"], [.terminal "b"]]⟩,
          ⟨"$", [[.nonterminal "S", .terminal "$$"]]⟩]
        start := "S" }
    Reads 1 ("S -> S a | b; $ -> S $$".toList.splitOn ';')
        [⟨1, "S", [["S", "a"], ["b"]]⟩, ⟨2, "$", [["S", "$$"]]⟩] ∧
      ofText "S -> S a | b; $ -> S $$" = .ok g ∧
      .endMarker ∈ g.eliminateLeftRecursion.leftFactor.terminals ∧
      g.eliminateLeftRecursion.leftFactor.declares Symbol.endMarker.name = true := by
  intro g
  have hds : Reads 1 ("S -> S a | b; $ -> S $$".toList.splitOn ';')
      [⟨1, "S", [["S", "a"], ["b"]]⟩, ⟨2, "$", [["S", "$$"]]⟩] :=
    reads_ofText.2 (by set_option maxRecDepth 2000 in rfl)
  have hg : ofText "S -> S a | b; $ -> S $$" = .ok g := by
    set_option maxRecDepth 2000 in rfl
  obtain ⟨-, hterminals⟩ := reserved_ofText hds
  obtain ⟨hmarker, hdeclares⟩ := hterminals g _ hg ChangesTo.refl.eliminateLeftRecursion.leftFactor
  exact ⟨hds, hg, hmarker, (hdeclares _ hmarker).2 ⟨rfl, ⟨2, "$", [["S", "$$"]]⟩, by simp⟩⟩

/-- A declaration with the left side `$` is read, and then the end marker has the name of a
nonterminal. -/
theorem declares_endMarker_of_text :
    let g : Grammar := { rules := [⟨"$", [[.terminal "a"]]⟩], start := "$" }
    Reads 1 ("$ -> a".toList.splitOn ';') [⟨1, "$", [["a"]]⟩] ∧ ofText "$ -> a" = .ok g ∧
      .endMarker ∈ g.terminals ∧ g.declares Symbol.endMarker.name = true := by
  intro g
  exact ⟨reads_ofText.2 rfl, rfl, by decide, by decide⟩

end Grammar

end PredictiveParsing
