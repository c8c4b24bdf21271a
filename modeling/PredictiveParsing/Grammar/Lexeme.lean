import PredictiveParsing.Text.Alphanumeric
import PredictiveParsing.Text.Blank

/-!
# Lexemes of a right side

A right side is cut at blanks, and each word is cut again wherever characters of a name meet other
characters, so that `L,` is the name `L` and the sign `,`. A word is gone through once with the byte
offsets of its characters, and its parts are taken out by these offsets.

## Main definitions

* `isNameChar`: the characters of names.
* `splitWord`: the parts of a word.
* `lexemes`: the lexemes of a text.
-/

namespace PredictiveParsing.Lexeme

open Text

def isNameChar (c : Char) : Bool := isAlphanumeric c || c == '_' || c == '\''

/-! ## Byte offsets -/

def byteLength : List Char → Nat
  | [] => 0
  | c :: cs => c.utf8Size + byteLength cs

/-- The characters of a text with the offsets of their first bytes, counted from `i`. -/
def charIndices (i : Nat) : List Char → List (Nat × Char)
  | [] => []
  | c :: cs => (i, c) :: charIndices (i + c.utf8Size) cs

def slice (cs : List Char) (start stop : Nat) : List Char :=
  ((charIndices 0 cs).filter fun p => start ≤ p.1 && p.1 < stop).map Prod.snd

/-! ## Cutting a word -/

/-- A word part way through: the offset at which the part at hand begins, whether the character
before belongs to a name, and the parts that are done. -/
structure Cut where
  start : Nat := 0
  previous : Option Bool := none
  pieces : List (List Char) := []

/-- One more character, with its offset. The part at hand ends before it if its class is new. -/
def Cut.next (word : List Char) (cut : Cut) : Nat × Char → Cut
  | (i, c) =>
    if cut.previous.any (· != isNameChar c) then
      { start := i
        previous := some (isNameChar c)
        pieces := cut.pieces ++ [slice word cut.start i] }
    else
      { cut with previous := some (isNameChar c) }

def splitWord (word : List Char) : List (List Char) :=
  let cut : Cut := (charIndices 0 word).foldl (Cut.next word) {}
  if cut.start < byteLength word then
    cut.pieces ++ [slice word cut.start (byteLength word)]
  else
    cut.pieces

/-- The lexemes of a text in order. A prime that stands alone is not one. -/
def lexemes (text : List Char) : List (List Char) :=
  ((words text).flatMap splitWord).filter (· != ['\''])

end PredictiveParsing.Lexeme
