/-!
# Text in TeX

Characters with a meaning of their own in TeX are written so that they print as themselves.

## Main definitions

* `Tex.escape`: the escaped form of a text.
-/

namespace PredictiveParsing.Text.Tex

/-- How a single character is written, apart from the hyphen, whose form depends on the character
after it. -/
def escapeChar (c : Char) : String :=
  match c with
  | '&' => "\\&"
  | '%' => "\\%"
  | '$' => "\\$"
  | '#' => "\\#"
  | '_' => "\\_"
  | '{' => "\\\x7b"
  | '}' => "\\\x7d"
  | '[' => "\x7b[\x7d"
  | ']' => "\x7b]\x7d"
  | '~' => "\\textasciitilde\x7b\x7d"
  | '^' => "\\textasciicircum\x7b\x7d"
  | '<' => "\\textless\x7b\x7d"
  | '>' => "\\textgreater\x7b\x7d"
  | '!' => "!\x7b\x7d"
  | '\\' => "\\textbackslash\x7b\x7d"
  | c => c.toString

/-- The written form of each character of a text. A hyphen directly before another one is followed
by an empty group, since TeX would join the two into a dash. -/
def escapeChars : List Char → List String
  | [] => []
  | '-' :: '-' :: cs => "-\x7b\x7d" :: escapeChars ('-' :: cs)
  | c :: cs => escapeChar c :: escapeChars cs

def escape (s : String) : String := String.join (escapeChars s.toList)

end PredictiveParsing.Text.Tex
