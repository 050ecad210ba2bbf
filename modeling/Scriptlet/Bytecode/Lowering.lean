import Scriptlet.Bytecode.Chunk
import Scriptlet.Program.Tree

/-! # Lowering programs to code

The code of an expression leaves its value on top of the stack; that of a statement leaves the stack
as it found it, except that a declaration in a block leaves the variable's value in its slot. Code
is built from the back: each function puts code in front of the code that follows.
-/

namespace Scriptlet

/-- The block variables whose values lie on the stack, innermost first, with their slots. -/
structure Frame where
  slots : List (String × Nat)
deriving DecidableEq, Repr

namespace Frame

def empty : Frame := ⟨[]⟩

/-- The number of variables, which is the slot of the next one. -/
def size (frame : Frame) : Nat :=
  match frame.slots with
  | [] => 0
  | (_, slot) :: _ => slot + 1

def declare (frame : Frame) (name : String) : Frame :=
  ⟨(name, frame.size) :: frame.slots⟩

def slot? (frame : Frame) (name : String) : Option Nat :=
  frame.slots.lookup name

/-- The frame after a statement. -/
def after (frame : Frame) : Stmt → Frame
  | .decl name _ _ _ => frame.declare name
  | _ => frame

end Frame

namespace Pool

/-- The index of a constant that the pool holds. -/
def index (pool : Pool) (value : Value) : Nat :=
  (pool.find? (.ofValue value)).getD 0

/-- Pushes a value. -/
def load (pool : Pool) : Value → Instr
  | .nil => .pushNil
  | .bool true => .pushTrue
  | .bool false => .pushFalse
  | value => .constant (pool.index value)

/-- Pushes the value of a variable. -/
def read (pool : Pool) (frame : Frame) (name : String) : Instr :=
  match frame.slot? name with
  | some slot => .getLocal slot
  | none => .getGlobal (pool.index (.str name))

/-- Gives a variable the value on top of the stack. -/
def write (pool : Pool) (frame : Frame) (name : String) : Instr :=
  match frame.slot? name with
  | some slot => .setLocal slot
  | none => .setGlobal (pool.index (.str name))

end Pool

def UnaryOp.instr : UnaryOp → Instr
  | .negate => .negate
  | .not => .not

/-- The comparisons without an instruction of their own are the negations of others. -/
def BinaryOp.instrs : BinaryOp → List Instr
  | .add => [.add]
  | .subtract => [.subtract]
  | .multiply => [.multiply]
  | .divide => [.divide]
  | .equal => [.equal]
  | .notEqual => [.equal, .not]
  | .greater => [.greater]
  | .greaterEqual => [.less, .not]
  | .less => [.less]
  | .lessEqual => [.greater, .not]

/-- The code of an expression, followed by `k`. -/
def Expr.code (pool : Pool) (frame : Frame) : Expr → Code → Code
  | .literal value pos, k => (pool.load value, pos) :: k
  | .var name pos, k => (pool.read frame name, pos) :: k
  | .assign name value, k => value.code pool frame ((pool.write frame name, value.last) :: k)
  | .group inner _, k => inner.code pool frame k
  | .unary op operand, k => operand.code pool frame ((op.instr, operand.last) :: k)
  | .binary op left right, k =>
    left.code pool frame (right.code pool frame (op.instrs.map (·, right.last) ++ k))

theorem Expr.code_eq_append (pool : Pool) (frame : Frame) (e : Expr) (k : Code) :
    e.code pool frame k = e.code pool frame [] ++ k := by
  induction e generalizing k with
  | literal | var => rfl
  | assign name value ih | unary op value ih =>
    rw [Expr.code, Expr.code, ih, ih [_], List.append_assoc]
    rfl
  | group inner close ih => exact ih k
  | binary op left right ihl ihr =>
    rw [Expr.code, Expr.code, ihl, ihr, ihl (right.code _ _ _), ihr (_ ++ [])]
    simp

/-- The code of an expression that may be absent, which then is nil at `pos`. -/
def Expr.codeOrNil (pool : Pool) (frame : Frame) (pos : Pos) : Option Expr → Code → Code
  | none, k => (.pushNil, pos) :: k
  | some e, k => e.code pool frame k

mutual

/-- The code of a statement in a block, followed by `k`. -/
def Stmt.code (pool : Pool) (frame : Frame) : Stmt → Code → Code
  | .expr value stop, k => value.code pool frame ((.pop, stop) :: k)
  | .print argument opening stop, k =>
    Expr.codeOrNil pool frame opening argument ((.print, stop) :: k)
  | .decl _ pos initial stop, k =>
    Expr.codeOrNil pool frame pos initial ((.declLocal frame.size, stop) :: k)
  | .block body close, k => Stmt.codeBody pool frame.size close frame body k

/-- The code of the statements of a block, followed by `k`. At its end the variables beyond the
first `outer` ones are dropped. -/
def Stmt.codeBody (pool : Pool) (outer : Nat) (close : Pos) (frame : Frame) :
    List Stmt → Code → Code
  | [], k => List.replicate (frame.size - outer) (.pop, close) ++ k
  | s :: rest, k => s.code pool frame (Stmt.codeBody pool outer close (frame.after s) rest k)

end

/-- The code of a statement outside all blocks, where declarations bind globals. -/
def Stmt.topCode (pool : Pool) : Stmt → Code → Code
  | .decl name pos initial stop, k =>
    Expr.codeOrNil pool .empty pos initial
      ((.declGlobal (pool.index (.str name)), stop) :: (.pop, stop) :: k)
  | s, k => s.code pool .empty k

def Program.code (program : Program) (pool : Pool) : Code :=
  program.body.foldr (·.topCode pool) [(.halt, program.stop)]

/-- The chunk of a program whose constants are all in `pool`. -/
def Program.lower (program : Program) (pool : Pool) : Chunk :=
  .ofCode (program.code pool) pool

end Scriptlet
