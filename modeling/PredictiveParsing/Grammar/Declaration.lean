import PredictiveParsing.Grammar.Lexeme

/-!
# Declarations

A grammar is written as declarations `A -> x y | z`, separated by semicolons. A piece of the text
that does not have this form is no declaration and is passed over, but it is counted.

## Main definitions

* `Declaration`: a nonterminal with the lexemes of the alternatives declared for it.
* `Declaration.ofText`: the declarations of a text.
-/

namespace PredictiveParsing

/-- One declaration. `number` is its place among all pieces of the text, counted from one. -/
structure Declaration where
  number : Nat
  left : String
  right : List (List String)
  deriving DecidableEq, Repr

namespace Declaration

open Text

def arrowParts : List Char → List (List Char)
  | [] => [[]]
  | '-' :: '>' :: cs => [] :: arrowParts cs
  | c :: cs => (arrowParts cs).modifyHead (c :: ·)

def alternativeLexemes (right : List Char) : List (List String) :=
  (pieces (· == '|') right).map fun alternative => (Lexeme.lexemes alternative).map String.ofList

/-- Reads a piece of a text, which must have exactly one arrow and exactly one word before it. -/
def ofPiece? (number : Nat) (piece : List Char) : Option Declaration :=
  match arrowParts piece with
  | [left, right] =>
    match words left with
    | [name] => some ⟨number, String.ofList name, alternativeLexemes right⟩
    | _ => none
  | _ => none

def ofText (text : List Char) : List Declaration :=
  ((pieces (· == ';') text).zipIdx 1).filterMap fun p => ofPiece? p.2 p.1

/-- Whether the lexeme `$` occurs in the right side. -/
def usesEndMarker (d : Declaration) : Bool := d.right.any (·.contains "$")

end Declaration

end PredictiveParsing
