import PredictiveParsing.Json.Basic
import PredictiveParsing.Symbol

/-!
# Symbols as JSON

A symbol with a name is an object with its kind as the only key. The other two are strings.

## Main definitions

* `Symbol.toJson`: a symbol as JSON.
-/

namespace PredictiveParsing

def Symbol.toJson : Symbol → Json
  | terminal name => .object [("Terminal", .string name)]
  | nonterminal name => .object [("NonTerminal", .string name)]
  | epsilon => .string "Epsilon"
  | endMarker => .string "EndMarker"

end PredictiveParsing
