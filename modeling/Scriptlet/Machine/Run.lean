import Scriptlet.Machine.Step

/-! # Running code

Instructions are executed one after the other until the run ends or a step fails. Code has no
jumps, so a run takes at most as many steps as there are instructions.
-/

namespace Scriptlet.Machine

/-- Executes the instructions that are left of a chunk, the first of which is at `offset`. -/
def execute (chunk : Chunk) : (offset : Nat) → List Instr → Machine → Except Fault Unit × Machine
  | offset, [], m => (.error ⟨.internal .endOfCode, chunk.posAt (offset - 1)⟩, m)
  | _, .halt :: _, m => (.ok (), m)
  | offset, instr :: rest, m =>
    match step chunk.pool instr m with
    | .ok _ m => execute chunk (offset + 1) rest m
    | .error e m => (.error ⟨e, chunk.posAt offset⟩, m)

/-- Runs a chunk on an empty stack. The stack stays as the run leaves it. -/
def run (chunk : Chunk) (m : Machine) : Except Fault Unit × Machine :=
  execute chunk 0 chunk.code.toList { m with stack := m.stack.clear }

end Scriptlet.Machine
