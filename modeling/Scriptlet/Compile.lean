import Scriptlet.Bytecode.Lowering
import Scriptlet.Program.Parser
import Scriptlet.Token.Lexer

/-! # Compiling scripts -/

namespace Scriptlet

/-- Why a script has no code. -/
structure Rejection where
  diagnostics : List Diagnostic
  /-- False if reading the script would go on forever; the diagnostics are then those up to the
  place where it no longer gets on. -/
  ended : Bool
deriving DecidableEq, Repr

def Rejection.text (r : Rejection) : String :=
  Diagnostic.textAll r.diagnostics

/-- With `recovery`, every bad statement is reported and not only the first. -/
def compile (recovery : Bool) (source : String) : Except Rejection Chunk :=
  match Program.ofTokens recovery (Token.ofSource source).toList with
  | .error diagnostics => .error ⟨diagnostics, false⟩
  | .ok (program, p) =>
    if p.diagnostics.isEmpty then .ok (program.lower p.pool) else .error ⟨p.diagnostics, true⟩

end Scriptlet
