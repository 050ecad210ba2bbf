import Scriptlet.Bytecode.Chunk
import Scriptlet.Text.Column
import Scriptlet.Value.Text

/-! # Listing code

A table of the instructions of a chunk, a line for each: offset, line of the script, mnemonic and
operand, and the constant that the operand names.
-/

namespace Scriptlet.Chunk

/-- The line of the script, or a bar where it repeats the line of the instruction before. -/
def lineColumn (chunk : Chunk) (offset : Nat) : String :=
  match chunk.pos? offset with
  | none => "   ?"
  | some pos =>
    let previous := if offset = 0 then none else chunk.pos? (offset - 1)
    if previous.map Pos.line = some pos.line then "   |"
    else Text.alignRight ' ' 4 (toString pos.line.toNat)

def operation (chunk : Chunk) (instr : Instr) : String :=
  let withOperand (operand : Nat) : String :=
    Text.alignLeft 16 instr.mnemonic ++ " " ++ Text.alignRight ' ' 4 (toString operand)
  match instr.constant?, instr.slot? with
  | some index, _ =>
    match chunk.pool.get? index with
    | some value => s!"{withOperand index} '{value.text}'"
    | none => withOperand index ++ " <invalid>"
  | none, some slot => withOperand slot
  | none, none => instr.mnemonic

/-- The line for an offset, which may lie outside the code. -/
def listingLine (chunk : Chunk) (offset : Nat) : String :=
  let number := Text.alignRight '0' 4 (toString offset)
  let operation :=
    match chunk.code[offset]? with
    | some instr => chunk.operation instr
    | none => "<out of range>"
  s!"{number} {chunk.lineColumn offset} {operation}"

def listing (chunk : Chunk) (label : String) : String :=
  (List.range chunk.code.size).foldl (fun table offset => table ++ chunk.listingLine offset ++ "\n")
    s!"== {label} ==\n"

end Scriptlet.Chunk
