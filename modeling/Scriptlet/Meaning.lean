import Scriptlet.Machine.Fault
import Scriptlet.Machine.Globals
import Scriptlet.Program.Tree
import Scriptlet.Value.Compare
import Scriptlet.Value.Text

/-! # The meaning of programs

A program evaluated as it is written, without code and without a stack: operands from left to
right, a declared value before its variable exists, and names by the innermost block that declares
them. Depth and amount of output are not limited here, so neither of the two can fail.
-/

namespace Scriptlet

/-- The comparisons that are not primitive negate those that are. -/
def BinaryOp.apply (a b : Value) : BinaryOp → Except ValueError Value
  | .add => a.add b
  | .subtract => a.subtract b
  | .multiply => a.multiply b
  | .divide => a.divide b
  | .equal => .ok (.bool (a.equals b))
  | .notEqual => .ok (.bool !(a.equals b))
  | .greater => (a.greater b).map .bool
  | .greaterEqual => (a.less b).map fun less => .bool !less
  | .less => (a.less b).map .bool
  | .lessEqual => (a.greater b).map fun greater => .bool !greater

def UnaryOp.apply (a : Value) : UnaryOp → Except ValueError Value
  | .negate => a.negate
  | .not => a.not

/-- What evaluation changes. -/
structure Env where
  /-- The variables of the open blocks, innermost first. -/
  locals : List (String × Value)
  globals : Globals
  /-- Everything printed so far. -/
  printed : String
deriving DecidableEq, Repr

/-- An evaluation that may fail; what it changed until then stays changed. -/
abbrev Eval := EStateM RuntimeError Env

namespace Env

/-- Gives the innermost variable of a name a new value. -/
def setLocal (name : String) (value : Value) : List (String × Value) → List (String × Value)
  | [] => []
  | (n, v) :: outer => if n = name then (n, value) :: outer else (n, v) :: setLocal name value outer

def read (name : String) : Eval Value := fun env =>
  match env.locals.lookup name, env.globals.get? name with
  | some value, _ => .ok value env
  | none, some value => .ok value env
  | none, none => .error (.undefinedVariable name) env

def write (name : String) (value : Value) : Eval Unit := fun env =>
  match env.locals.lookup name, env.globals.get? name with
  | some _, _ => .ok () { env with locals := setLocal name value env.locals }
  | none, some _ => .ok () { env with globals := env.globals.assign name value }
  | none, none => .error (.undefinedVariable name) env

def declareLocal (name : String) (value : Value) : Eval Unit := fun env =>
  .ok () { env with locals := (name, value) :: env.locals }

/-- A global can be declared only once. -/
def declareGlobal (name : String) (value : Value) : Eval Unit := fun env =>
  match env.globals.get? name with
  | some _ => .error (.alreadyDeclared name) env
  | none => .ok () { env with globals := env.globals.declare name value }

def print (value : Value) : Eval Unit := fun env =>
  .ok () { env with printed := env.printed ++ value.text ++ "\n" }

/-- Drops the variables beyond the outermost `outer` ones. -/
def closeBlock (outer : Nat) : Eval Unit := fun env =>
  .ok () { env with locals := env.locals.drop (env.locals.length - outer) }

def result : Except ValueError Value → Eval Value
  | .ok value => pure value
  | .error e => throw (.ofValueError e)

end Env

/-- An assignment yields the assigned value. -/
def Expr.eval : Expr → Eval Value
  | .literal value _ => pure value
  | .var name _ => Env.read name
  | .assign name e => do
    let value ← e.eval
    Env.write name value
    return value
  | .group inner _ => inner.eval
  | .unary op operand => do
    let a ← operand.eval
    Env.result (op.apply a)
  | .binary op left right => do
    let a ← left.eval
    let b ← right.eval
    Env.result (op.apply a b)

/-- An absent expression is nil. -/
def Expr.evalOrNil : Option Expr → Eval Value
  | none => pure .nil
  | some e => e.eval

mutual

/-- Evaluates a statement in a block. -/
def Stmt.eval : Stmt → Eval Unit
  | .expr value _ => do
    let _ ← value.eval
  | .print argument _ _ => do Env.print (← Expr.evalOrNil argument)
  | .decl name _ initial _ => do Env.declareLocal name (← Expr.evalOrNil initial)
  | .block body _ => do
    let outer := (← get).locals.length
    Stmt.evalAll body
    Env.closeBlock outer

def Stmt.evalAll : List Stmt → Eval Unit
  | [] => pure ()
  | s :: rest => do
    s.eval
    Stmt.evalAll rest

end

/-- Evaluates a statement outside all blocks. -/
def Stmt.evalTop : Stmt → Eval Unit
  | .decl name _ initial _ => do Env.declareGlobal name (← Expr.evalOrNil initial)
  | s => s.eval

def Program.eval (program : Program) : Eval Unit :=
  program.body.forM Stmt.evalTop

end Scriptlet
