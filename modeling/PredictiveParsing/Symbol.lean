/-!
# Grammar symbols

A terminal and a nonterminal may be spelled alike, so a symbol carries its kind. The empty word and
the end of the input are symbols of their own, and no spelling stands for them.

## Main definitions

* `Symbol`: terminals, nonterminals, the empty word and the end marker.
* `Symbol.name`: how a symbol is written.
* `Symbol.le`: the order in which sets of symbols are listed.
* `Alternative`: the right side of a rule.
-/

namespace PredictiveParsing

/-- A symbol of a grammar or of its input. -/
inductive Symbol where
  | terminal (name : String)
  | nonterminal (name : String)
  | epsilon
  | endMarker
  deriving DecidableEq, Repr, Inhabited

namespace Symbol

/-- The text that stands for a symbol. Symbols of different kinds may share it. -/
def name : Symbol → String
  | terminal n => n
  | nonterminal n => n
  | epsilon => "ε"
  | endMarker => "$"

/-- The symbols that a parser may meet in its input, the end marker among them. -/
def isTerminal : Symbol → Bool
  | terminal _ => true
  | endMarker => true
  | _ => false

def nonterminal? : Symbol → Option String
  | nonterminal n => some n
  | _ => none

def rank : Symbol → Nat
  | terminal _ => 0
  | nonterminal _ => 1
  | epsilon => 2
  | endMarker => 3

/-- Terminals come before nonterminals, these before the empty word, and the end marker is last.
Within a kind the names decide, character by character. -/
def le (a b : Symbol) : Bool :=
  a.rank < b.rank || (a.rank == b.rank && a.name ≤ b.name)

def sort (symbols : List Symbol) : List Symbol := symbols.mergeSort le

def members (symbols : List Symbol) : List Symbol := sort symbols.eraseDups

end Symbol

/-- One right side of a rule. The empty word is written as the single symbol `epsilon` or as no
symbol at all. -/
abbrev Alternative := List Symbol

namespace Alternative

def text (alternative : Alternative) : String :=
  " ".intercalate (alternative.map Symbol.name)

def isEpsilon (alternative : Alternative) : Bool :=
  alternative.all (· == .epsilon)

/-- The first symbol, unless there is none or it is `epsilon`. -/
def lead (alternative : Alternative) : Option Symbol :=
  alternative.head?.filter (· != .epsilon)

end Alternative

end PredictiveParsing
