/-! # Scopes

The block variables that a reader of a script knows at some point of it. A variable is entered
before its initial value is read and can be used only afterwards.
-/

namespace Scriptlet

structure Local where
  name : String
  /-- Its place among the variables in scope, counted from the outermost. -/
  slot : Nat
  /-- How many blocks surround it; none while its initial value is being read. -/
  depth : Option Nat
deriving DecidableEq, Repr

structure Scope where
  /-- The innermost variable comes first. -/
  locals : List Local
  /-- The number of open blocks. -/
  depth : Nat
deriving DecidableEq, Repr

/-- What a name denotes. -/
inductive Binding where
  | global
  | block
  /-- A block variable inside its own initial value. -/
  | uninitialized
deriving DecidableEq, Repr

namespace Scope

/-- Outside all blocks. -/
def top : Scope := ⟨[], 0⟩

/-- The greatest number of variables in scope at once. -/
def capacity : Nat := 65536

/-- The number of variables in scope, which is the slot of the next one. -/
def size (scope : Scope) : Nat :=
  match scope.locals with
  | [] => 0
  | innermost :: _ => innermost.slot + 1

def enter (scope : Scope) : Scope :=
  { scope with depth := scope.depth + 1 }

/-- Closes the innermost block; its variables go out of scope. -/
def leave (scope : Scope) : Scope :=
  let depth := scope.depth - 1
  { locals := scope.locals.dropWhile fun l => !l.depth.any (· ≤ depth), depth }

/-- Whether one of the variables of a block at `depth`, which come first, has that name. -/
def declaresAt (depth : Nat) (name : String) : List Local → Bool
  | [] => false
  | l :: outer => l.depth.all (depth ≤ ·) && (l.name == name || declaresAt depth name outer)

/-- Whether the innermost block has a variable of that name. -/
def declares (scope : Scope) (name : String) : Bool :=
  declaresAt scope.depth name scope.locals

/-- Enters a variable whose initial value is still to be read. -/
def push (scope : Scope) (name : String) : Scope :=
  { scope with locals := ⟨name, scope.size, none⟩ :: scope.locals }

/-- Makes the innermost variable usable, as one of the innermost block. -/
def settle (scope : Scope) : Scope :=
  match scope.locals with
  | [] => scope
  | innermost :: outer =>
    { scope with locals := { innermost with depth := some scope.depth } :: outer }

/-- The innermost variable of a name hides the others. -/
def resolve (scope : Scope) (name : String) : Binding :=
  match scope.locals.find? (·.name == name) with
  | none => .global
  | some found => if found.depth.isNone then .uninitialized else .block

end Scope

end Scriptlet
