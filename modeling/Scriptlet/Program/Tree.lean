import Scriptlet.Position
import Scriptlet.Program.Operator
import Scriptlet.Value.Basic

/-! # Programs

A script as a tree. Names are as written; whether one denotes a global or a block variable follows
from the blocks around it. The nodes keep the positions to which a failure at run time is
attributed.
-/

namespace Scriptlet

inductive Expr where
  | literal (value : Value) (pos : Pos)
  | var (name : String) (pos : Pos)
  | assign (name : String) (value : Expr)
  /-- An expression in parentheses, with the position of the closing one. -/
  | group (inner : Expr) (close : Pos)
  | unary (op : UnaryOp) (operand : Expr)
  | binary (op : BinaryOp) (left right : Expr)
deriving DecidableEq, Repr, Inhabited

/-- The position of the last token of an expression. -/
def Expr.last : Expr → Pos
  | .literal _ pos => pos
  | .var _ pos => pos
  | .assign _ value => value.last
  | .group _ close => close
  | .unary _ operand => operand.last
  | .binary _ _ right => right.last

/-- A statement; `stop` is the position of the semicolon that ends it. -/
inductive Stmt where
  | expr (value : Expr) (stop : Pos)
  /-- Without an argument, nil is printed; `opening` is the position of the parenthesis. -/
  | print (argument : Option Expr) (opening stop : Pos)
  /-- Without an initial value, the variable starts as nil; `pos` is the position of its name. -/
  | decl (name : String) (pos : Pos) (initial : Option Expr) (stop : Pos)
  /-- The variables declared in a block end with it; `close` is the position of its brace. -/
  | block (body : List Stmt) (close : Pos)
deriving Repr, Inhabited

structure Program where
  body : List Stmt
  /-- The end of the script. -/
  stop : Pos
deriving Repr, Inhabited

end Scriptlet
