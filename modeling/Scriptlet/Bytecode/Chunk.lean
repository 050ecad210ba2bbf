import Scriptlet.Bytecode.Instr
import Scriptlet.Bytecode.Pool
import Scriptlet.Position

/-! # Chunks

A piece of code: instructions, the position in the script that each of them comes from, and the
constants they refer to. The table of positions may be shorter than the code.
-/

namespace Scriptlet

/-- Instructions with their positions. -/
abbrev Code := List (Instr × Pos)

structure Chunk where
  code : Array Instr
  positions : Array Pos
  pool : Pool
deriving DecidableEq, Repr, Inhabited

namespace Chunk

def empty : Chunk := ⟨#[], #[], .empty⟩

def ofCode (code : Code) (pool : Pool) : Chunk :=
  ⟨(code.map Prod.fst).toArray, (code.map Prod.snd).toArray, pool⟩

def emit (chunk : Chunk) (instr : Instr) (pos : Pos) : Chunk :=
  { chunk with code := chunk.code.push instr, positions := chunk.positions.push pos }

/-- Adds a constant as `Pool.add` does. -/
def addConstant (chunk : Chunk) (constant : Constant) : Option Nat × Chunk :=
  let (index, pool) := chunk.pool.add constant
  (index, { chunk with pool })

def pos? (chunk : Chunk) (offset : Nat) : Option Pos :=
  chunk.positions[offset]?

/-- The position of an instruction, as far as it is known. -/
def posAt (chunk : Chunk) (offset : Nat) : Pos :=
  (chunk.pos? offset).getD .unknown

end Chunk

end Scriptlet
