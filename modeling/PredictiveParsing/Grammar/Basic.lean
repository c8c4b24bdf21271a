import PredictiveParsing.Symbol

/-!
# Grammars

A grammar is a list of rules, one per nonterminal, in the order of declaration, with a start symbol.
It remembers two things about its rules so as not to look for them again: the place of each
nonterminal and the terminals. Both are made anew after every edit, and the type of grammars says
that they belong to the rules. In the middle of an edit a `Draft` may hold those of earlier rules.

## Main definitions

* `Draft`: a grammar as it is held while it is edited.
* `Draft.reindex`: makes the index and the terminals anew.
* `Grammar`: a draft whose index and terminals are those of its rules.
* `Grammar.setAlternatives`, `Grammar.insertAfter`: the two ways in which a grammar is changed.
-/

namespace PredictiveParsing

/-- A nonterminal and its alternatives, in order. There may be none. -/
structure Rule where
  name : String
  alternatives : List Alternative
  deriving DecidableEq, Repr, Inhabited

/-! ## What a grammar remembers of its rules -/

/-- The place of each nonterminal among the rules. A later entry of a name hides an earlier one. -/
def indexOf (rules : List Rule) : List (String × Nat) :=
  (rules.map Rule.name).zipIdx.reverse

/-- The pass over the right sides that collects the terminals: the names seen so far, and the
terminals found so far. -/
structure TerminalScan where
  seen : List String := []
  found : List Symbol := []

namespace TerminalScan

/-- One symbol. A terminal counts if its name is not in the index and has not been seen. -/
def next (index : List (String × Nat)) (scan : TerminalScan) : Symbol → TerminalScan
  | .terminal n =>
    if (index.lookup n).isNone && !scan.seen.contains n then
      { seen := n :: scan.seen, found := scan.found ++ [.terminal n] }
    else scan
  | _ => scan

def ofRules (index : List (String × Nat)) (rules : List Rule) : TerminalScan :=
  rules.foldl (fun scan r => r.alternatives.foldl (fun scan p => p.foldl (next index) scan) scan) {}

end TerminalScan

/-- The terminals in order of first appearance, and the end marker last. -/
def terminalsOf (index : List (String × Nat)) (rules : List Rule) : List Symbol :=
  (TerminalScan.ofRules index rules).found ++ [.endMarker]

/-! ## Grammars -/

/-- A grammar as it is held. `minted` is the last number used for a fresh name; it belongs to the
grammar so that a grammar made from this one goes on counting. Within an edit, `index` and
`terminals` may be those of the rules before it. -/
structure Draft where
  rules : List Rule
  start : String
  minted : Nat := 0
  index : List (String × Nat) := indexOf rules
  terminals : List Symbol := terminalsOf index rules
  deriving Repr

namespace Draft

/-- The index and the terminals are those of the rules as they are now. -/
structure IsCurrent (d : Draft) : Prop where
  index : d.index = indexOf d.rules
  terminals : d.terminals = terminalsOf d.index d.rules

def reindex (d : Draft) : Draft :=
  let index := indexOf d.rules
  { d with index, terminals := terminalsOf index d.rules }

theorem isCurrent_reindex (d : Draft) : d.reindex.IsCurrent := ⟨rfl, rfl⟩

end Draft

/-- An ordered context-free grammar, with an up-to-date index and up-to-date terminals. -/
structure Grammar extends Draft where
  current : toDraft.IsCurrent := by exact ⟨rfl, rfl⟩
  deriving Repr

/-- The grammar that a draft becomes when its edit is done. -/
def Draft.done (d : Draft) : Grammar := { d.reindex with current := d.isCurrent_reindex }

namespace Grammar

/-- The grammar with these rules that has not minted a name yet. -/
def ofRules (rules : List Rule) (start : String) : Grammar :=
  Draft.done { rules, start, index := [], terminals := [] }

def names (g : Grammar) : List String := g.rules.map Rule.name

def declares (g : Grammar) (name : String) : Bool := (g.index.lookup name).isSome

def rule? (g : Grammar) (name : String) : Option Rule :=
  (g.index.lookup name).bind fun i => g.rules[i]?

/-- The alternatives of the nonterminal `name`, none if there is no such nonterminal. -/
def alternatives (g : Grammar) (name : String) : List Alternative :=
  ((g.rule? name).map Rule.alternatives).getD []

def occurrences (g : Grammar) : List Symbol :=
  g.rules.flatMap fun r => r.alternatives.flatten

/-- Two grammars are the same if they have the same rules in the same order and the same start
symbol. The names minted on the way do not count. -/
def same (g h : Grammar) : Bool := g.rules == h.rules && g.start == h.start

/-! ## Edits -/

def setAlternatives (g : Grammar) (name : String) (alternatives : List Alternative) : Grammar :=
  match g.index.lookup name with
  | some i =>
    Draft.done { g.toDraft with
      rules := g.rules.modify i fun r => { r with alternatives } }
  | none => g

/-- Adds a rule directly after the rule of `name`, or at the end if there is no such rule. -/
def insertAfter (g : Grammar) (name : String) (new : Rule) : Grammar :=
  let place := ((g.index.lookup name).map (· + 1)).getD g.rules.length
  Draft.done { g.toDraft with rules := g.rules.insertIdx place new }

def withMinted (g : Grammar) (n : Nat) : Grammar :=
  { g with minted := n, current := ⟨g.current.index, g.current.terminals⟩ }

end Grammar

end PredictiveParsing
