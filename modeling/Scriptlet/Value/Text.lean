import Scriptlet.Decimal.Layout
import Scriptlet.Value.Basic

/-! # The text of values

What printing a value writes. A string is written as it is; a float keeps a fraction part, which
tells it from an integer.
-/

namespace Scriptlet.Value

/-- Floats from `0.0001` up to but not including `10 ^ 16` are written positionally. -/
def floatLayout : Decimal.Layout :=
  { positionalFrom := -4, positionalBelow := 16, infinity := "inf", nan := "NaN" }

def text : Value → String
  | .nil => "nil"
  | .bool true => "true"
  | .bool false => "false"
  | .int n => toString n.toInt
  | .float x => floatLayout.float x
  | .str s => s

end Scriptlet.Value
