import PredictiveParsing.Parser.Configuration
import PredictiveParsing.Table

/-!
# Moves of the parser

A move takes the top symbol from the stack and deals with it. The parser proper looks before every
move whether it is about to expand a nonterminal within itself with no token consumed between, since
the table would then do the same for ever; without this check the moves alone make up a machine that
may run on and on.

## Main definitions

* `Configuration.move`: one move.
* `Configuration.repetition?`: the check before a move.
* `Configuration.step`: a checked move.
-/

namespace PredictiveParsing

inductive Progress where
  | moved (c : Configuration)
  | stopped (r : Run)
  deriving DecidableEq, Repr

namespace Configuration

/-- The end of a run that fails at `top`, which is put back on the stack. -/
def failAt (c : Configuration) (top : Symbol) (e : SyntaxError) : Run :=
  ⟨{ c.record (.error e) with stack := top :: c.stack }, some e⟩

/-- Deals with an input that does not match the terminal `top`, which has been taken from the
stack. -/
def mismatch (mode : Recovery) (top : Symbol) (c : Configuration) : Progress :=
  let e := .mismatch top (lookahead c.input)
  match mode with
  | .abort => .stopped (c.failAt top e)
  | .panicMode => .moved (c.note e)

def consume (mode : Recovery) (a : String) (c : Configuration) : Progress :=
  match c.input with
  | [] => c.mismatch mode (.terminal a)
  | token :: rest =>
    if a == token then .moved ({ c with input := rest, pending := [] }.record (.consume a))
    else c.mismatch mode (.terminal a)

def push (name : String) (p : Alternative) (c : Configuration) : Configuration :=
  { c.record (.expand name p) with
    stack := p ++ c.stack
    pending := ⟨name, c.stack.length⟩ :: c.pending
    tree := ⟨name, p.map Symbol.name⟩ :: c.tree }

def expand (t : Table) (mode : Recovery) (name : String) (c : Configuration) : Progress :=
  match t.cell? name (lookahead c.input) with
  | some p => .moved (c.push name p)
  | none =>
    let e := .noRule name (lookahead c.input)
    match mode with
    | .abort => .stopped (c.failAt (.nonterminal name) e)
    | .panicMode => .moved ((c.note e).skipTo ((t.follow.get? name).getD []))

def finish (c : Configuration) : Run :=
  if c.input.isEmpty then ⟨c.record .accept, none⟩
  else
    let e := .incompleteConsumption c.input
    ⟨c.record (.error e), some e⟩

/-- One move, without the check. -/
def move (t : Table) (mode : Recovery) (c : Configuration) : Progress :=
  match c.stack with
  | [] => .stopped c.finish
  | .epsilon :: rest => .moved ({ c with stack := rest }.record .popEpsilon)
  | .nonterminal name :: rest =>
    { c with stack := rest, pending := c.unfinished rest.length }.expand t mode name
  | .terminal a :: rest => { c with stack := rest }.consume mode a
  | .endMarker :: rest =>
    if c.input.isEmpty then .stopped ⟨{ c with stack := rest }.record .accept, none⟩
    else { c with stack := rest }.mismatch mode .endMarker

/-- The error of expanding a nonterminal again while its own expansion is not finished and no token
has been consumed since. -/
def repetition? (c : Configuration) : Option SyntaxError :=
  match c.stack with
  | .nonterminal name :: rest =>
    if (c.unfinished rest.length).any (·.name == name) then
      some (.leftRecursion name (lookahead c.input))
    else none
  | _ => none

/-- One checked move. A repetition ends the run in either mode, with the stack as it is. -/
def step (t : Table) (mode : Recovery) (c : Configuration) : Progress :=
  match c.repetition? with
  | some e => .stopped ⟨c.record (.error e), some e⟩
  | none => c.move t mode

end Configuration

end PredictiveParsing
