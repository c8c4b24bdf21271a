import PredictiveParsing.Symbol

/-!
# Syntax errors

What can go wrong while an input is parsed, and what the parser does about it.

## Main definitions

* `Recovery`: what the parser does after an error.
* `SyntaxError`: the kinds of errors.
* `Outcome`: how a run ends.
-/

namespace PredictiveParsing

/-- What the parser does when the table has no rule or a terminal does not match. -/
inductive Recovery where
  /-- Stop at the first error. -/
  | abort
  /-- Drop the symbol that fails. After a nonterminal, skip the input up to a token that can follow
  it. Then go on. -/
  | panicMode
  deriving DecidableEq, Repr, Inhabited

/-- What can go wrong while an input is parsed. -/
inductive SyntaxError where
  /-- The table has no alternative for the nonterminal at this lookahead. -/
  | noRule (nonterminal : String) (lookahead : Symbol)
  /-- The stack expects a terminal and the input has another symbol. -/
  | mismatch (expected found : Symbol)
  /-- The nonterminal is about to be expanded within itself without any input between. -/
  | leftRecursion (nonterminal : String) (lookahead : Symbol)
  /-- The stack is empty and tokens are left. -/
  | incompleteConsumption (remaining : List String)
  deriving DecidableEq, Repr

def SyntaxError.message : SyntaxError → String
  | noRule n s => "no production for " ++ n ++ " with lookahead " ++ s.name
  | mismatch e f => "expected " ++ e.name ++ ", found " ++ f.name
  | leftRecursion n s => "expanding " ++ n ++ " with lookahead " ++ s.name ++ " never consumes input"
  | incompleteConsumption _ => "input not fully consumed"

/-- How a run ends. That the parser has recovered is said of a run only, and never of one of the
errors in its list. -/
inductive Outcome where
  | accepted
  /-- The run stopped at its only error. -/
  | rejected (error : SyntaxError)
  /-- The run went on after errors. The list has all of them in order, also the one at which it
  stopped, if any. -/
  | recovered (errors : List SyntaxError)
  deriving DecidableEq, Repr

def Outcome.message : Outcome → String
  | accepted => "Input parsed successfully."
  | rejected e => e.message
  | recovered es => "input parsed with " ++ toString es.length ++ " syntax error(s)"

end PredictiveParsing
