/-!
# JSON values

What is reported is put together as a value. How a value is written, and how options are read from a
text, is up to a library, of which only the functions that are called are known.

## Main definitions

* `Json`: the values that are written.
* `JsonLibrary`: what is called of a library for JSON.
-/

namespace PredictiveParsing

/-- A JSON value. No numbers are written. -/
inductive Json where
  | null
  | bool (b : Bool)
  | string (s : String)
  | array (items : List Json)
  | object (fields : List (String × Json))

def Json.strings (texts : List String) : Json := array (texts.map string)

/-- What is called of a library for JSON, where `Settings` are read from texts. An error is given by
its message. -/
structure JsonLibrary (Settings : Type) where
  read : String → Except String Settings
  write : Json → Except String String
  /-- The text that a value is displayed with. -/
  display : Json → String

end PredictiveParsing
