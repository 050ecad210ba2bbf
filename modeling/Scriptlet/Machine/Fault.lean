import Scriptlet.Position
import Scriptlet.Value.Basic

/-! # Faults

Why a run fails, and at which position of the script.
-/

namespace Scriptlet

/-- What is wrong with code that no script gives rise to. -/
inductive Defect where
  /-- The code ends without an instruction that ends the run. -/
  | endOfCode
  | noSuchConstant
  | nameNotString (type : ValueType)
  /-- A block variable was declared while `depth` values lay on the stack. -/
  | misplacedLocal (slot depth : Nat)
deriving DecidableEq, Repr

def Defect.message : Defect → String
  | .endOfCode => "IP out of bounds"
  | .noSuchConstant => "Constant index out of bounds"
  | .nameNotString type => s!"global name must be a string, got {type.name}"
  | .misplacedLocal slot depth => s!"local slot {slot} declared at stack depth {depth}"

inductive RuntimeError where
  | stackUnderflow
  | stackOverflow (limit : Nat)
  | typeError (expected got : String)
  | undefinedVariable (name : String)
  | alreadyDeclared (name : String)
  | divisionByZero
  | integerOverflow
  /-- Output could not be written. -/
  | output (reason : String)
  | internal (defect : Defect)
deriving DecidableEq, Repr

namespace RuntimeError

def ofValueError : ValueError → RuntimeError
  | .typeMismatch expected got => .typeError expected got
  | .overflow _ => .integerOverflow
  | .divisionByZero => .divisionByZero

def message : RuntimeError → String
  | .stackUnderflow => "stack underflow"
  | .stackOverflow limit => s!"stack overflow (maximum depth {limit})"
  | .typeError expected got => s!"type error: expected {expected}, got {got}"
  | .undefinedVariable name => s!"undefined variable '{name}'"
  | .alreadyDeclared name => s!"variable '{name}' already declared"
  | .divisionByZero => "division by zero"
  | .integerOverflow => "integer overflow"
  | .output reason => s!"failed to write output: {reason}"
  | .internal defect => s!"internal error: {defect.message}"

end RuntimeError

structure Fault where
  error : RuntimeError
  pos : Pos
deriving DecidableEq, Repr

def Fault.text (fault : Fault) : String :=
  s!"{fault.pos.text} Runtime error: {fault.error.message}"

end Scriptlet
