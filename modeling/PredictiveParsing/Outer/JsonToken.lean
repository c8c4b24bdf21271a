/-!
# JSON tokens

The text of a JSON value is a sequence of tokens with blanks between them.

A string may spell half of a surrogate pair by an escape. Such a string is well formed, but it is
not a text.

## Main definitions

* `JsonToken`: brackets, marks, literals, numbers and strings.
* `JsonToken.read?`: the token at the beginning of some characters.
* `JsonToken.readAll?`: all tokens of a text.
-/

namespace PredictiveParsing

/-- A token. A string that is not a text has no value. -/
inductive JsonToken where
  | leftBrace
  | rightBrace
  | leftBracket
  | rightBracket
  | colon
  | comma
  | null
  | bool (b : Bool)
  | number (literal : String)
  | string (s : Option String)
  deriving DecidableEq, Repr

namespace JsonToken

/-- The blanks that may stand between tokens. -/
def isSpace (c : Char) : Bool := c == ' ' || c == '\t' || c == '\n' || c == '\r'

/-! ## Numbers -/

/-- What is left after one digit or more. -/
def dropDigits? : List Char → Option (List Char)
  | c :: cs => if c.isDigit then some (cs.dropWhile Char.isDigit) else none
  | [] => none

/-- What is left after an integer without sign, which has no superfluous zero in front. -/
def dropInteger? : List Char → Option (List Char)
  | '0' :: cs => some cs
  | cs => dropDigits? cs

def dropFraction? : List Char → Option (List Char)
  | '.' :: cs => dropDigits? cs
  | cs => some cs

def dropSign : List Char → List Char
  | '+' :: cs => cs
  | '-' :: cs => cs
  | cs => cs

/-- What is left after an optional exponent. -/
def dropExponent? : List Char → Option (List Char)
  | 'e' :: cs => dropDigits? (dropSign cs)
  | 'E' :: cs => dropDigits? (dropSign cs)
  | cs => some cs

def isUnsignedNumber (cs : List Char) : Bool :=
  (dropInteger? cs >>= dropFraction? >>= dropExponent?) == some []

def isNumber : List Char → Bool
  | '-' :: cs => isUnsignedNumber cs
  | cs => isUnsignedNumber cs

def isNumberChar (c : Char) : Bool :=
  c.isDigit || c == '-' || c == '+' || c == '.' || c == 'e' || c == 'E'

/-! ## Strings -/

def hexValue? (c : Char) : Option Nat :=
  if c.isDigit then some (c.toNat - '0'.toNat)
  else if 'a' ≤ c && c ≤ 'f' then some (c.toNat - 'a'.toNat + 10)
  else if 'A' ≤ c && c ≤ 'F' then some (c.toNat - 'A'.toNat + 10)
  else none

def hexValue4? (a b c d : Char) : Option Nat := do
  return (((← hexValue? a) * 16 + (← hexValue? b)) * 16 + (← hexValue? c)) * 16 + (← hexValue? d)

/-- The code of the character that a backslash and `c` stand for. -/
def escapeValue? (c : Char) : Option Nat :=
  match c with
  | '"' => some 0x22
  | '\\' => some 0x5C
  | '/' => some 0x2F
  | 'b' => some 0x08
  | 'f' => some 0x0C
  | 'n' => some 0x0A
  | 'r' => some 0x0D
  | 't' => some 0x09
  | _ => none

/-- Reads a string up to its closing quote. The codes are those of characters and of halves of
surrogate pairs. -/
def readString? : List Char → Option (List Nat × List Char)
  | [] => none
  | '"' :: cs => some ([], cs)
  | '\\' :: 'u' :: a :: b :: c :: d :: cs =>
    (hexValue4? a b c d).bind fun code => (readString? cs).map fun (codes, rest) =>
      (code :: codes, rest)
  | '\\' :: c :: cs =>
    (escapeValue? c).bind fun code => (readString? cs).map fun (codes, rest) =>
      (code :: codes, rest)
  | c :: cs =>
    if c.toNat < 0x20 then none
    else (readString? cs).map fun (codes, rest) => (c.toNat :: codes, rest)

def isHighHalf (n : Nat) : Bool := 0xD800 ≤ n && n ≤ 0xDBFF

def isLowHalf (n : Nat) : Bool := 0xDC00 ≤ n && n ≤ 0xDFFF

/-- The characters of some codes. A first half must have a second half after it, and a second half
must not stand alone. -/
def characters? : List Nat → Option (List Char)
  | [] => some []
  | [n] => if isHighHalf n || isLowHalf n then none else some [Char.ofNat n]
  | n :: m :: codes =>
    if isHighHalf n then
      if isLowHalf m then
        (characters? codes).map (Char.ofNat ((n - 0xD800) * 0x400 + (m - 0xDC00) + 0x10000) :: ·)
      else none
    else if isLowHalf n then none
    else (characters? (m :: codes)).map (Char.ofNat n :: ·)

/-! ## Tokens -/

/-- The token at the beginning of some characters, which are not blank, and what is left. -/
def read? : List Char → Option (JsonToken × List Char)
  | '\x7b' :: cs => some (leftBrace, cs)
  | '\x7d' :: cs => some (rightBrace, cs)
  | '[' :: cs => some (leftBracket, cs)
  | ']' :: cs => some (rightBracket, cs)
  | ':' :: cs => some (colon, cs)
  | ',' :: cs => some (comma, cs)
  | 'n' :: 'u' :: 'l' :: 'l' :: cs => some (null, cs)
  | 't' :: 'r' :: 'u' :: 'e' :: cs => some (bool true, cs)
  | 'f' :: 'a' :: 'l' :: 's' :: 'e' :: cs => some (bool false, cs)
  | '"' :: cs => (readString? cs).map fun (codes, rest) =>
    (string ((characters? codes).map String.ofList), rest)
  | c :: cs =>
    let literal := (c :: cs).takeWhile isNumberChar
    if isNumber literal then
      some (number (String.ofList literal), cs.dropWhile isNumberChar)
    else none
  | [] => none

theorem length_readString?_lt {cs rest : List Char} {codes : List Nat}
    (h : readString? cs = some (codes, rest)) : rest.length < cs.length := by
  fun_induction readString? cs generalizing codes rest <;>
    grind [Option.bind_eq_some_iff, Option.map_eq_some_iff]

theorem length_read?_lt {cs rest : List Char} {t : JsonToken} (h : read? cs = some (t, rest)) :
    rest.length < cs.length := by
  unfold read? at h
  split at h
  case h_10 cs =>
    obtain ⟨⟨codes, r⟩, hr, he⟩ := Option.map_eq_some_iff.1 h
    have := length_readString?_lt hr
    grind
  case h_11 c cs _ _ _ _ _ _ _ _ _ _ =>
    have := (List.dropWhile_sublist isNumberChar (l := cs)).length_le
    grind
  all_goals grind

def readAll? : List Char → Option (List JsonToken)
  | [] => some []
  | c :: cs =>
    if isSpace c then readAll? cs
    else
      match _h : read? (c :: cs) with
      | none => none
      | some (t, rest) => (readAll? rest).map (t :: ·)
termination_by cs => cs.length
decreasing_by
  · simp
  · exact length_read?_lt ‹_›

end JsonToken

end PredictiveParsing
