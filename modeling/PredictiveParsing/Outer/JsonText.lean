import PredictiveParsing.Json.Basic

/-!
# JSON in texts

A value is written without blanks, and its fields are written in the order in which they are given.

## Main definitions

* `Json.quote`: a string in quotes.
* `Json.text`: the text of a value.
-/

namespace PredictiveParsing.Json

def hexDigit (n : Nat) : Char := Nat.digitChar (n % 16)

/-- How a character is written within quotes. Only quotes, backslashes and control characters are
not written as they are. -/
def escapeChar (c : Char) : String :=
  match c with
  | '"' => "\\\""
  | '\\' => "\\\\"
  | '\x08' => "\\b"
  | '\t' => "\\t"
  | '\n' => "\\n"
  | '\x0c' => "\\f"
  | '\r' => "\\r"
  | c =>
    if c.toNat < 0x20 then
      String.ofList ['\\', 'u', '0', '0', hexDigit (c.toNat / 16), hexDigit c.toNat]
    else c.toString

def quote (s : String) : String := "\"" ++ String.join (s.toList.map escapeChar) ++ "\""

mutual

/-- The text of a value. -/
def text : Json → String
  | null => "null"
  | bool b => if b then "true" else "false"
  | string s => quote s
  | array items => "[" ++ ",".intercalate (itemTexts items) ++ "]"
  | object fields => "\x7b" ++ ",".intercalate (fieldTexts fields) ++ "\x7d"

def itemTexts : List Json → List String
  | [] => []
  | item :: items => item.text :: itemTexts items

def fieldTexts : List (String × Json) → List String
  | [] => []
  | (key, value) :: fields => (quote key ++ ":" ++ value.text) :: fieldTexts fields

end

end PredictiveParsing.Json
