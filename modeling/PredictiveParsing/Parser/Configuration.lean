import PredictiveParsing.Parser.SyntaxError

/-!
# Configurations of the parser

A configuration is all that a parser knows between two moves: its stack, the tokens that it has not
consumed, the expansions that have not consumed anything yet, and what it has done so far.

## Main definitions

* `Action`, `Step`: one entry of the trace.
* `TreeEdge`: one expansion of the parse tree.
* `Configuration`: the state of a parser.
* `Run`: a finished run, with its outcome, trace and tree.
-/

namespace PredictiveParsing

inductive Action where
  | expand (nonterminal : String) (alternative : Alternative)
  /-- A terminal on the stack meets the same token. -/
  | consume (token : String)
  | popEpsilon
  | accept
  /-- Panic mode discards a token. -/
  | skip (token : String)
  | error (error : SyntaxError)
  deriving DecidableEq, Repr

/-- One entry of the trace: an action, with the stack and the tokens left when it is recorded. The
stack has its top first. -/
structure Step where
  stack : List Symbol
  input : List String
  action : Action
  deriving DecidableEq, Repr

/-- An expansion since the last consumed token, with the height of the stack below it. -/
structure Expansion where
  name : String
  depth : Nat
  deriving DecidableEq, Repr

structure TreeEdge where
  parent : String
  children : List String
  deriving DecidableEq, Repr

/-- The state of a parser between two moves. The stack has its top first, and so have `pending`,
`trace` and `tree`, which grow like it. -/
structure Configuration where
  stack : List Symbol
  input : List String
  pending : List Expansion := []
  errors : List SyntaxError := []
  trace : List Step := []
  tree : List TreeEdge := []
  deriving DecidableEq, Repr

def lookahead : List String → Symbol
  | [] => .endMarker
  | token :: _ => .terminal token

/-- Tokens as symbols, with the end marker after them. -/
def inputSymbols (tokens : List String) : List Symbol := tokens.map .terminal ++ [.endMarker]

namespace Configuration

def record (c : Configuration) (action : Action) : Configuration :=
  { c with trace := ⟨c.stack, c.input, action⟩ :: c.trace }

def note (c : Configuration) (e : SyntaxError) : Configuration :=
  { c.record (.error e) with errors := c.errors ++ [e] }

/-- Discards the next token, which is `token`. -/
def skip (c : Configuration) (token : String) : Configuration :=
  { c.record (.skip token) with input := c.input.tail, pending := [] }

/-- Discards tokens up to one in `follow` or to the end of the input. -/
def skipTo (follow : List Symbol) (c : Configuration) : Configuration :=
  (c.input.takeWhile fun token => !follow.contains (.terminal token)).foldl skip c

/-- The pending expansions that are not finished when the stack has come down to `depth`. -/
def unfinished (c : Configuration) (depth : Nat) : List Expansion :=
  c.pending.filter (·.depth ≤ depth)

end Configuration

/-- A finished run: the configuration at its end, and the error at which it stopped, if any. -/
structure Run where
  final : Configuration
  failure : Option SyntaxError
  deriving DecidableEq, Repr

namespace Run

def steps (r : Run) : List Step := r.final.trace.reverse

def tree (r : Run) : List TreeEdge := r.final.tree.reverse

def outcome (r : Run) : Outcome :=
  match r.final.errors, r.failure with
  | [], none => .accepted
  | [], some e => .rejected e
  | errors, failure => .recovered (errors ++ failure.toList)

end Run

end PredictiveParsing
