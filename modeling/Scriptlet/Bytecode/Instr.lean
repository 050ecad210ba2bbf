/-! # Instructions

The instructions of the machine. An operand is a 16-bit word: the index of a constant, or the slot
of a block variable, which is its place on the stack counted from the bottom.
-/

namespace Scriptlet

inductive Instr where
  | constant (index : Nat)
  | pushNil
  | pushTrue
  | pushFalse
  | negate
  | not
  | add
  | subtract
  | multiply
  | divide
  | equal
  | greater
  | less
  /-- Binds a new global to the value on top, which stays. The constant is its name. -/
  | declGlobal (index : Nat)
  /-- Gives a global the value on top, which stays. -/
  | setGlobal (index : Nat)
  | getGlobal (index : Nat)
  /-- States that the value on top is that of a new block variable. -/
  | declLocal (slot : Nat)
  /-- Gives a block variable the value on top, which stays. -/
  | setLocal (slot : Nat)
  | getLocal (slot : Nat)
  | print
  | pop
  /-- Ends the run. -/
  | halt
deriving DecidableEq, Repr, Inhabited

namespace Instr

def mnemonic : Instr → String
  | .constant _ => "CONSTANT"
  | .pushNil => "NIL"
  | .pushTrue => "TRUE"
  | .pushFalse => "FALSE"
  | .negate => "NEGATE"
  | .not => "NOT"
  | .add => "ADD"
  | .subtract => "SUBTRACT"
  | .multiply => "MULTIPLY"
  | .divide => "DIVIDE"
  | .equal => "EQUAL"
  | .greater => "GREATER"
  | .less => "LESS"
  | .declGlobal _ => "DECL_GLOBAL"
  | .setGlobal _ => "SET_DECL_GLOBAL"
  | .getGlobal _ => "GET_DECL_GLOBAL"
  | .declLocal _ => "DECL_LOCAL"
  | .setLocal _ => "SET_DECL_LOCAL"
  | .getLocal _ => "GET_DECL_LOCAL"
  | .print => "PRINT"
  | .pop => "POP"
  | .halt => "RETURN"

/-- The index of the constant that an instruction refers to. -/
def constant? : Instr → Option Nat
  | .constant index | .declGlobal index | .setGlobal index | .getGlobal index => some index
  | _ => none

/-- The slot that an instruction refers to. -/
def slot? : Instr → Option Nat
  | .declLocal slot | .setLocal slot | .getLocal slot => some slot
  | _ => none

end Instr

end Scriptlet
