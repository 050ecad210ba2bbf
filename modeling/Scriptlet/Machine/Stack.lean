import Scriptlet.Machine.Fault

/-! # Operand stacks

A stack of values with a greatest depth. Values are reached from the top, by their distance from
it, or from the bottom, by their index.
-/

namespace Scriptlet

structure Stack where
  /-- The bottom comes first. -/
  values : Array Value
  limit : Nat
deriving DecidableEq, Repr

namespace Stack

def defaultLimit : Nat := 256

def ofLimit (limit : Nat) : Stack := ⟨#[], limit⟩

def depth (stack : Stack) : Nat := stack.values.size

@[inline] def push (stack : Stack) (value : Value) : Except RuntimeError Stack :=
  if stack.values.size < stack.limit then .ok { stack with values := stack.values.push value }
  else .error (.stackOverflow stack.limit)

@[inline] def pop (stack : Stack) : Except RuntimeError (Value × Stack) :=
  match stack.values.back? with
  | some top => .ok (top, { stack with values := stack.values.pop })
  | none => .error .stackUnderflow

/-- The value at an index from the bottom. -/
def get (stack : Stack) (index : Nat) : Except RuntimeError Value :=
  match stack.values[index]? with
  | some value => .ok value
  | none => .error .stackUnderflow

/-- The value at a distance from the top. -/
def peek (stack : Stack) (distance : Nat) : Except RuntimeError Value :=
  if distance < stack.values.size then stack.get (stack.values.size - 1 - distance)
  else .error .stackUnderflow

@[inline] def set (stack : Stack) (index : Nat) (value : Value) : Except RuntimeError Stack :=
  if index < stack.values.size then
    .ok { stack with values := stack.values.setIfInBounds index value }
  else .error .stackUnderflow

def clear (stack : Stack) : Stack := { stack with values := #[] }

end Stack

end Scriptlet
