/-!
# Plain text layout

Widths are counted in characters, so a padded column is as wide as its widest entry whatever the
alphabet.

## Main definitions

* `padLeft`: right-aligns a text in a column.
* `maxWidth`: the width of the widest of some texts.
* `columnWidths`, `alignColumns`: a grid of texts with columns of equal width.
-/

namespace PredictiveParsing.Text

/-- Fills `s` with spaces on the left up to `width` characters. A longer text stays as it is. -/
def padLeft (width : Nat) (s : String) : String :=
  String.ofList (s.toList.leftpad width ' ')

def maxWidth (texts : List String) : Nat := (texts.map String.length).foldl max 0

def columnWidths : List (List String) → List Nat
  | [] => []
  | line :: lines =>
    lines.foldl (fun widths line => widths.zipWith max (line.map String.length))
      (line.map String.length)

/-- The lines of a grid with all entries padded to the width of their columns and a bar between
neighbours. -/
def alignColumns (lines : List (List String)) : List String :=
  lines.map fun line => " | ".intercalate ((columnWidths lines).zipWith padLeft line)

end PredictiveParsing.Text
