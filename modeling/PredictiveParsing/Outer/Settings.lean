import PredictiveParsing.Outer.JsonReader

/-!
# Settings

Settings are values with known keys, each of which has a default. They are given by an object, or by
an array that has the values in the order of the keys.

## Main definitions

* `JsonData.settings?`: the values that are given, by key.
* `setting?`: one of them.
-/

namespace PredictiveParsing

/-- The values of an object by key. Keys that are not `known` are passed over. A key must be a text,
and a known one must not be given twice. -/
def keyedSettings? (known : List String) (fields : List (Option String × JsonData)) :
    Option (List (String × JsonData)) := do
  let keyed ← fields.mapM fun (key, value) => key.map (·, value)
  let given := keyed.filter (known.contains ·.1)
  if (given.map Prod.fst).Nodup then some given else none

/-- The values that are given for the `known` keys. An array must not have more values than there
are keys. -/
def JsonData.settings? (known : List String) : JsonData → Option (List (String × JsonData))
  | .object fields => keyedSettings? known fields
  | .array items => if items.length ≤ known.length then some (known.zip items) else none
  | _ => none

def setting? {α : Type} (given : List (String × JsonData)) (key : String) (default : α)
    (read : JsonData → Option α) : Option α :=
  match given.lookup key with
  | none => some default
  | some value => read value

def JsonData.bool? : JsonData → Option Bool
  | .bool b => some b
  | _ => none

end PredictiveParsing
