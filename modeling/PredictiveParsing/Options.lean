import PredictiveParsing.Parser.SyntaxError
import PredictiveParsing.Text.Blank

/-!
# Options

What is done with a grammar before it is used, and how its parser reacts to errors. Options are read
from a text by a function that is given. A blank text is not read; it stands for the defaults.

## Main definitions

* `Options`: all options.
* `Options.ofText`: the options that a text sets.
-/

namespace PredictiveParsing

structure Options where
  eliminateLeftRecursion : Bool := false
  leftFactor : Bool := false
  recovery : Recovery := .abort
  deriving DecidableEq, Repr, Inhabited

/-- The options that a text sets, or the message of the error in it. -/
def Options.ofText (read : String → Except String Options) (text : String) :
    Except String Options :=
  if Text.isBlankText text.toList then .ok {} else read text

end PredictiveParsing
