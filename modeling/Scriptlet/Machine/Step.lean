import Scriptlet.Bytecode.Chunk
import Scriptlet.Machine.Globals
import Scriptlet.Machine.Sink
import Scriptlet.Machine.Stack
import Scriptlet.Value.Compare
import Scriptlet.Value.Text

/-! # The effect of an instruction

A step changes the machine or fails. A step that fails keeps what it had changed until then: the
operands of a failed operation are gone, and so is the room for output that did not fit.
-/

namespace Scriptlet

structure Machine where
  stack : Stack
  globals : Globals
  sink : Sink

namespace Machine

/-- With an empty stack, no globals and nothing written. -/
def init (stackLimit : Nat) (outputLimit : Option Nat) : Machine :=
  ⟨.ofLimit stackLimit, .empty, .ofLimit outputLimit⟩

/-- A change of the machine that may fail part of the way. -/
abbrev Step := EStateM RuntimeError Machine

def push (value : Value) : Step Unit := fun m =>
  match m.stack.push value with
  | .ok stack => .ok () { m with stack }
  | .error e => .error e m

def pop : Step Value := fun m =>
  match m.stack.pop with
  | .ok (value, stack) => .ok value { m with stack }
  | .error e => .error e m

def peek (distance : Nat) : Step Value := fun m =>
  match m.stack.peek distance with
  | .ok value => .ok value m
  | .error e => .error e m

/-- The value in a slot, counted from the bottom of the stack. -/
def getSlot (slot : Nat) : Step Value := fun m =>
  match m.stack.get slot with
  | .ok value => .ok value m
  | .error e => .error e m

def setSlot (slot : Nat) (value : Value) : Step Unit := fun m =>
  match m.stack.set slot value with
  | .ok stack => .ok () { m with stack }
  | .error e => .error e m

def write (text : String) : Step Unit := fun ⟨stack, globals, sink⟩ =>
  match sink.write text.toUTF8 with
  | (.ok _, sink) => .ok () ⟨stack, globals, sink⟩
  | (.error reason, sink) => .error (.output reason) ⟨stack, globals, sink⟩

def global? (name : String) : Step (Option Value) := fun m =>
  .ok (m.globals.get? name) m

def setGlobals (change : Globals → Globals) : Step Unit := fun m =>
  .ok () { m with globals := change m.globals }

def constant (pool : Pool) (index : Nat) : Step Value :=
  match pool.get? index with
  | some value => pure value
  | none => throw (.internal .noSuchConstant)

/-- The name of a global, which is a constant. -/
def globalName (pool : Pool) (index : Nat) : Step String := do
  match ← constant pool index with
  | .str name => pure name
  | other => throw (.internal (.nameNotString other.type))

def result : Except ValueError Value → Step Value
  | .ok value => pure value
  | .error e => throw (.ofValueError e)

/-- Replaces the value on top by the result of an operation on it. -/
def unary (operation : Value → Except ValueError Value) : Step Unit := do
  let operand ← pop
  push (← result (operation operand))

/-- Replaces the two values on top by the result of an operation on them; the right operand lies
above the left. -/
def binary (operation : Value → Value → Except ValueError Value) : Step Unit := do
  let right ← pop
  let left ← pop
  push (← result (operation left right))

/-- Where several things are wrong, the first check that fails counts. -/
def step (pool : Pool) : Instr → Step Unit
  | .constant index => do push (← constant pool index)
  | .pushNil => push .nil
  | .pushTrue => push (.bool true)
  | .pushFalse => push (.bool false)
  | .negate => unary Value.negate
  | .not => unary Value.not
  | .add => binary Value.add
  | .subtract => binary Value.subtract
  | .multiply => binary Value.multiply
  | .divide => binary Value.divide
  | .equal => binary fun a b => .ok (.bool (a.equals b))
  | .greater => binary fun a b => (a.greater b).map .bool
  | .less => binary fun a b => (a.less b).map .bool
  | .declGlobal index => do
    let name ← globalName pool index
    match ← global? name with
    | some _ => throw (.alreadyDeclared name)
    | none =>
      let value ← peek 0
      setGlobals (·.declare name value)
  | .setGlobal index => do
    let name ← globalName pool index
    let value ← peek 0
    match ← global? name with
    | some _ => setGlobals (·.assign name value)
    | none => throw (.undefinedVariable name)
  | .getGlobal index => do
    let name ← globalName pool index
    match ← global? name with
    | some value => push value
    | none => throw (.undefinedVariable name)
  | .declLocal slot => fun m =>
    if m.stack.depth = slot + 1 then .ok () m
    else .error (.internal (.misplacedLocal slot m.stack.depth)) m
  | .setLocal slot => do
    let value ← peek 0
    setSlot slot value
  | .getLocal slot => do push (← getSlot slot)
  | .print => do
    let value ← pop
    write (value.text ++ "\n")
  | .pop => do
    let _ ← pop
  | .halt => pure ()

end Machine

end Scriptlet
