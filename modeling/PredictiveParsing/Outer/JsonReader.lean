import PredictiveParsing.Outer.JsonToken

/-!
# Reading JSON values

The tokens of a value are read from left to right. What is not finished is kept in a list of
containers, innermost first, so that a value may be nested to any depth.

## Main definitions

* `JsonReading`: how far a value has been read.
* `JsonReading.next?`: one token further.
* `JsonData.ofText?`: the value that a whole text spells.
-/

namespace PredictiveParsing

/-- A value that has been read. A number is kept as it is spelled. A string that is not a text is
`none`. -/
inductive JsonData where
  | null
  | bool (b : Bool)
  | number (literal : String)
  | string (s : Option String)
  | array (items : List JsonData)
  | object (fields : List (Option String × JsonData))

/-- A container whose next value is being read. What it holds already comes latest first. -/
inductive JsonFrame where
  | array (items : List JsonData)
  | object (fields : List (Option String × JsonData)) (key : Option String)

/-- How far a value has been read, and the containers that are still open, innermost first. -/
inductive JsonReading where
  /-- A value comes next. -/
  | value (frames : List JsonFrame)
  /-- An array has been opened. -/
  | arrayOpened (frames : List JsonFrame)
  /-- An object has been opened. -/
  | objectOpened (frames : List JsonFrame)
  /-- A key comes next. -/
  | key (fields : List (Option String × JsonData)) (frames : List JsonFrame)
  /-- A colon comes next. -/
  | colon (fields : List (Option String × JsonData)) (key : Option String)
    (frames : List JsonFrame)
  /-- A value has been read. -/
  | complete (v : JsonData) (frames : List JsonFrame)

namespace JsonReading

def begin? (frames : List JsonFrame) : JsonToken → Option JsonReading
  | .leftBrace => some (objectOpened frames)
  | .leftBracket => some (arrayOpened frames)
  | .null => some (complete .null frames)
  | .bool b => some (complete (.bool b) frames)
  | .number literal => some (complete (.number literal) frames)
  | .string s => some (complete (.string s) frames)
  | _ => none

/-- After a value, its container goes on or is closed. -/
def continue? (v : JsonData) : List JsonFrame → JsonToken → Option JsonReading
  | .array items :: frames, .comma => some (value (.array (v :: items) :: frames))
  | .array items :: frames, .rightBracket =>
    some (complete (.array (v :: items).reverse) frames)
  | .object fields name :: frames, .comma => some (key ((name, v) :: fields) frames)
  | .object fields name :: frames, .rightBrace =>
    some (complete (.object ((name, v) :: fields).reverse) frames)
  | _, _ => none

def next? : JsonReading → JsonToken → Option JsonReading
  | value frames, t => begin? frames t
  | arrayOpened frames, .rightBracket => some (complete (.array []) frames)
  | arrayOpened frames, t => begin? (.array [] :: frames) t
  | objectOpened frames, .rightBrace => some (complete (.object []) frames)
  | objectOpened frames, .string s => some (colon [] s frames)
  | key fields frames, .string s => some (colon fields s frames)
  | colon fields name frames, .colon => some (value (.object fields name :: frames))
  | complete v frames, t => continue? v frames t
  | _, _ => none

def result? : JsonReading → Option JsonData
  | complete v [] => some v
  | _ => none

end JsonReading

def JsonData.ofTokens? (tokens : List JsonToken) : Option JsonData :=
  tokens.foldlM JsonReading.next? (.value []) >>= JsonReading.result?

/-- The value that a whole text spells. -/
def JsonData.ofText? (text : String) : Option JsonData :=
  JsonToken.readAll? text.toList >>= ofTokens?

end PredictiveParsing
