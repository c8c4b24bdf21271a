import PredictiveParsing.Sets.Follow

/-!
# Predictive tables

The table says which alternative to expand a nonterminal with when a given terminal comes next. It
is filled alternative by alternative; an alternative that meets a cell with a different one in it
takes its place, and the conflict is recorded.

## Main definitions

* `Conflict`: a cell in which one alternative has taken the place of another.
* `Table`: the filled cells and the conflicts met on the way.
* `Table.cell?`: the alternative in a cell.
* `Table.build`: the table made from `FIRST` and `FOLLOW` sets.
-/

namespace PredictiveParsing

/-- A cell in which `winner` has taken the place of `replaced`. -/
structure Conflict where
  nonterminal : String
  terminal : Symbol
  replaced : Alternative
  winner : Alternative
  deriving DecidableEq, Repr

def Conflict.message (c : Conflict) : String :=
  "M[" ++ c.nonterminal ++ ", " ++ c.terminal.name ++ "]: " ++
    c.nonterminal ++ " -> " ++ c.replaced.text ++ " replaced by " ++
    c.nonterminal ++ " -> " ++ c.winner.text

/-- A predictive table. The cells are listed with the latest first, so that a cell that was filled
twice holds what was put in last. -/
structure Table where
  grammar : Grammar
  follow : FollowSets
  cells : List ((String × Symbol) × Alternative)
  conflicts : List Conflict

namespace Table

def cell? (t : Table) (nonterminal : String) (terminal : Symbol) : Option Alternative :=
  t.cells.lookup (nonterminal, terminal)

/-- Puts an alternative into a cell. It is a conflict if the cell held a different one. -/
def fill (t : Table) (nonterminal : String) (alternative : Alternative) (terminal : Symbol) :
    Table :=
  let conflicts :=
    match t.cell? nonterminal terminal with
    | some replaced =>
      if replaced == alternative then t.conflicts
      else t.conflicts ++ [⟨nonterminal, terminal, replaced, alternative⟩]
    | none => t.conflicts
  { t with cells := ((nonterminal, terminal), alternative) :: t.cells, conflicts }

/-- The terminals at which an alternative is chosen, in the order in which its cells are filled:
those that can begin it, then, if it derives the empty word, the others that can follow its
nonterminal. Both parts are in the order of the grammar's terminals. -/
def lookaheadsOf (first : FirstSets) (follow : FollowSets) (nonterminal : String)
    (alternative : Alternative) : List Symbol :=
  let starts := first.ofSequence alternative
  let after := if starts.contains .epsilon then (follow.get? nonterminal).getD [] else []
  let terminals := first.grammar.terminals
  terminals.filter starts.contains ++
    terminals.filter fun s => after.contains s && !starts.contains s

def fillAlternative (first : FirstSets) (follow : FollowSets) (nonterminal : String) (t : Table)
    (alternative : Alternative) : Table :=
  (lookaheadsOf first follow nonterminal alternative).foldl
    (fun t terminal => t.fill nonterminal alternative terminal) t

/-- The table of the grammar of `first`. The `FOLLOW` sets may come from another grammar. -/
def build (first : FirstSets) (follow : FollowSets) : Table :=
  first.grammar.rules.foldl
    (fun t r => r.alternatives.foldl (fillAlternative first follow r.name) t)
    ⟨first.grammar, follow, [], []⟩

/-- Whether no cell was ever filled with two different alternatives. -/
def isLL1 (t : Table) : Bool := t.conflicts.isEmpty

def rows (t : Table) : List (String × List (Option Alternative)) :=
  t.grammar.names.map fun name => (name, t.grammar.terminals.map (t.cell? name))

/-- Two tables are the same if they belong to the same grammar and agree in the `FOLLOW` sets, the
cells and the conflicts. -/
def same (t u : Table) : Bool :=
  t.grammar.same u.grammar && t.follow.same u.follow && t.rows == u.rows &&
    t.conflicts == u.conflicts

end Table

end PredictiveParsing
