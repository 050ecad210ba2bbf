/-! # Values

The values of a script: nil, booleans, 64-bit integers, doubles and strings. Equality of the type
is identity: floats are told apart by their bits, with a single NaN. What a script itself means by
equality is in `Scriptlet.Value.Compare`.
-/

namespace Scriptlet

inductive Value where
  | nil
  | bool (b : Bool)
  | int (n : Int64)
  | float (x : Float)
  | str (s : String)
deriving DecidableEq, Repr, Inhabited

inductive ValueType where
  | nil
  | bool
  | int
  | float
  | str
deriving DecidableEq, Repr

namespace ValueType

/-- The name that error messages use. -/
def name : ValueType → String
  | .nil => "nil"
  | .bool => "boolean"
  | .int => "integer"
  | .float => "float"
  | .str => "string"

/-- The type to which two operands are converted before a numeric operation. Only numbers have
one. -/
@[simp] def common? : ValueType → ValueType → Option ValueType
  | .int, .int => some .int
  | .int, .float => some .float
  | .float, .int => some .float
  | .float, .float => some .float
  | _, _ => none

end ValueType

namespace Value

@[simp] def type : Value → ValueType
  | .nil => .nil
  | .bool _ => .bool
  | .int _ => .int
  | .float _ => .float
  | .str _ => .str

def typeName (v : Value) : String :=
  v.type.name

end Value

/-- Why an operation on values has no result. -/
inductive ValueError where
  | typeMismatch (expected got : String)
  /-- The exact result of the operation written `symbol` is no 64-bit integer. -/
  | overflow (symbol : String)
  | divisionByZero
deriving DecidableEq, Repr

def ValueError.message : ValueError → String
  | .typeMismatch expected got => s!"type error: expected {expected}, got {got}"
  | .overflow symbol => s!"integer overflow in '{symbol}'"
  | .divisionByZero => "division by zero"

end Scriptlet
