/-!
# Blank characters

The characters that separate words in every text this library reads, and the words between them.

## Main definitions

* `isBlank`: the property `White_Space`.
* `isBlankText`: a text of blank characters only.
* `pieces`: the parts of a list between the elements of a class.
* `words`: the maximal runs of other characters.
-/

namespace PredictiveParsing.Text

/-- Whether `c` has the property `White_Space`. The separators U+001C to U+001F and the zero-width
characters do not have it. -/
def isBlank (c : Char) : Bool :=
  let n := c.toNat
  (0x09 ≤ n && n ≤ 0x0D) || n == 0x20 || n == 0x85 || n == 0xA0 || n == 0x1680 ||
    (0x2000 ≤ n && n ≤ 0x200A) || n == 0x2028 || n == 0x2029 || n == 0x202F || n == 0x205F ||
    n == 0x3000

def isBlankText (cs : List Char) : Bool := cs.all isBlank

/-- Cuts a list at every element that satisfies `p`. The cut elements are dropped, and the pieces
between neighbouring cuts are kept even when they are empty. -/
def pieces {α : Type} (p : α → Bool) (cs : List α) : List (List α) :=
  cs.foldr (fun c ws => if p c then [] :: ws else ws.modifyHead (c :: ·)) [[]]

def words (cs : List Char) : List (List Char) :=
  (pieces isBlank cs).filter (!·.isEmpty)

end PredictiveParsing.Text
