import Scriptlet.Value.Basic

/-! # Constant pools

The constants of a piece of code, each of which is named by its index. Adding a constant that is
already there gives its index again; constants are the same only if they are identical, so `1` and
`1.0` are two.
-/

namespace Scriptlet

/-- A value as a pool keeps it. A float is kept by its bits: those of a NaN can be many, and each is
a constant of its own. -/
inductive Constant where
  | nil
  | bool (b : Bool)
  | int (n : Int64)
  | float (bits : UInt64)
  | str (s : String)
deriving DecidableEq, Repr, Inhabited

namespace Constant

def ofValue : Value → Constant
  | .nil => .nil
  | .bool b => .bool b
  | .int n => .int n
  | .float x => .float x.toBits
  | .str s => .str s

def value : Constant → Value
  | .nil => .nil
  | .bool b => .bool b
  | .int n => .int n
  | .float bits => .float (Float.ofBits bits)
  | .str s => .str s

end Constant

structure Pool where
  constants : Array Constant
deriving DecidableEq, Repr, Inhabited

namespace Pool

def empty : Pool := ⟨#[]⟩

/-- How many constants an index, a 16-bit word, can tell apart. -/
def capacity : Nat := 65536

def size (pool : Pool) : Nat := pool.constants.size

/-- The value that an index names. -/
def get? (pool : Pool) (index : Nat) : Option Value := pool.constants[index]?.map Constant.value

/-- The first place where a constant stands. -/
def find? (pool : Pool) (constant : Constant) : Option Nat := pool.constants.idxOf? constant

/-- The index of a constant, and the pool that holds it. A full pool takes no new constant. A place
beyond the capacity, which `add` itself never fills, is cut down to a word. -/
def add (pool : Pool) (constant : Constant) : Option Nat × Pool :=
  match pool.find? constant with
  | some place => (some (place % capacity), pool)
  | none =>
    if pool.size < capacity then (some pool.size, ⟨pool.constants.push constant⟩) else (none, pool)

end Pool

end Scriptlet
