import Scriptlet.CommandLine

/-! # The program

Reads files and standard input and writes what `Scriptlet.CommandLine` decides.
-/

namespace Scriptlet.CommandLine

def Output.put (output : Output) : IO Unit := do
  let out ← IO.getStdout
  out.write output.out
  out.flush
  (← IO.getStderr).putStr output.err

def readScript (path : String) : IO (Except Unreadable ByteArray) := do
  try return .ok (← IO.FS.readBinFile path)
  catch
    | .noFileOrDirectory .. => return .error .missing
    | e => return .error (.other (toString e))

/-- Reads up to and including the next newline; nothing is left at the end of the input. -/
partial def readLine (input : IO.FS.Stream) (line : List UInt8) : IO (List UInt8) := do
  match (← input.read 1).data.toList with
  | [] => return line.reverse
  | b :: _ => if b = 10 then return (b :: line).reverse else readLine input (b :: line)

partial def converseWith (options : Options) (session : Session) : IO Unit := do
  (Output.ofOut prompt).put
  let line ← readLine (← IO.getStdin) []
  if line.isEmpty then farewell.put
  else
    let (answer, next) := respond options session line
    answer.put
    if let some session := next then converseWith options session

end Scriptlet.CommandLine

open Scriptlet.CommandLine

def main (arguments : List String) : IO UInt32 := do
  match parse arguments with
  | .error message =>
    (Output.ofErr s!"error: {message}\n").put
    return 2
  | .ok .version =>
    (Output.ofOut version).put
    return 0
  | .ok (.run options) =>
    match options.script with
    | some path =>
      let (code, output) := runScript options path (← readScript path)
      output.put
      return code.toUInt32
    | none =>
      converseWith options (.init options.config none)
      return 0
