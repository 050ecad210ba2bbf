import Scriptlet.Value.Arith

/-! # Comparing values

Numbers are compared after conversion to their common type, so an integer may equal a float.
Order is defined for numbers only; equality is defined for all values, and values that have no
common type differ.
-/

namespace Scriptlet.Value

/-- Equality as a script sees it. -/
def equals : Value → Value → Bool
  | .nil, .nil => true
  | .bool a, .bool b => a == b
  | .str a, .str b => a == b
  | a, b =>
    match operands? a b with
    | some (.ints a b) => a == b
    | some (.floats a b) => a == b
    | none => false

def greater (a b : Value) : Except ValueError Bool :=
  match operands? a b with
  | some (.ints a b) => .ok (decide (b < a))
  | some (.floats a b) => .ok (decide (b < a))
  | none => .error (mismatch ">" a b)

def less (a b : Value) : Except ValueError Bool :=
  match operands? a b with
  | some (.ints a b) => .ok (decide (a < b))
  | some (.floats a b) => .ok (decide (a < b))
  | none => .error (mismatch "<" a b)

end Scriptlet.Value
