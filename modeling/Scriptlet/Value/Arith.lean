import Scriptlet.Value.Basic

/-! # Arithmetic on values

Two integers are computed with exactly, and a result outside the 64-bit range is an error. As soon
as one operand is a float both are, and the operation is that of IEEE 754. Addition also joins two
strings, and negation also inverts a boolean.
-/

namespace Scriptlet

/-- Two numbers of one type. -/
inductive Operands where
  | ints (a b : Int64)
  | floats (a b : Float)

namespace Value

/-- The nearest double; of two equally near ones the even one. -/
def floatOfInt (n : Int64) : Float :=
  Float.ofInt n.toInt

@[simp] def asInt? : Value → Option Int64
  | .int n => some n
  | _ => none

/-- A number as a double. -/
@[simp] def asFloat? : Value → Option Float
  | .int n => some (floatOfInt n)
  | .float x => some x
  | _ => none

/-- Converts two numbers to their common type. -/
def operands? (a b : Value) : Option Operands :=
  match a.type.common? b.type with
  | some .int => return .ints (← a.asInt?) (← b.asInt?)
  | some .float => return .floats (← a.asFloat?) (← b.asFloat?)
  | _ => none

/-- The error of a numeric operation on operands that are not both numbers. -/
def mismatch (symbol : String) (a b : Value) : ValueError :=
  .typeMismatch "number" s!"{a.typeName} {symbol} {b.typeName}"

/-- The integer value `n`, if it is a 64-bit integer. -/
def ofExact (symbol : String) (n : Int) : Except ValueError Value :=
  if Int64.minValue.toInt ≤ n ∧ n ≤ Int64.maxValue.toInt then .ok (.int (Int64.ofInt n))
  else .error (.overflow symbol)

def arithmetic (symbol : String) (exact : Int → Int → Int) (approximate : Float → Float → Float)
    (a b : Value) : Except ValueError Value :=
  match operands? a b with
  | some (.ints a b) => ofExact symbol (exact a.toInt b.toInt)
  | some (.floats a b) => .ok (.float (approximate a b))
  | none => .error (mismatch symbol a b)

def add : Value → Value → Except ValueError Value
  | .str a, .str b => .ok (.str (a ++ b))
  | a, b => arithmetic "+" (· + ·) (· + ·) a b

def subtract (a b : Value) : Except ValueError Value :=
  arithmetic "-" (· - ·) (· - ·) a b

def multiply (a b : Value) : Except ValueError Value :=
  arithmetic "*" (· * ·) (· * ·) a b

/-- The quotient of integers is truncated toward zero. -/
def divide (a b : Value) : Except ValueError Value :=
  match operands? a b with
  | some (.ints _ 0) => .error .divisionByZero
  | _ => arithmetic "/" Int.tdiv (· / ·) a b

def negate : Value → Except ValueError Value
  | .int n => ofExact "-" (-n.toInt)
  | .float x => .ok (.float (-x))
  | .bool b => .ok (.bool !b)
  | v => .error (.typeMismatch "number or boolean" v.typeName)

def not : Value → Except ValueError Value
  | .bool b => .ok (.bool !b)
  | v => .error (.typeMismatch "boolean" v.typeName)

end Value

end Scriptlet
