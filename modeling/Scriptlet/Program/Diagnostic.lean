import Scriptlet.Token.Basic

/-! # Diagnostics

Why a script is rejected, and where.
-/

namespace Scriptlet

inductive CompileError where
  /-- Characters that form no token; `message` is the token's own. -/
  | lex (message : String)
  | expected (what : String)
  | expectedExpression
  | invalidAssignmentTarget
  /-- A second variable of that name in one block. -/
  | alreadyDeclared (name : String)
  | readInOwnInitializer (name : String)
  | tooManyConstants
  | tooManyLocals
  /-- Expressions or blocks inside one another beyond the limit. -/
  | tooDeeplyNested (limit : Nat)
deriving DecidableEq, Repr

def CompileError.message : CompileError → String
  | .lex message => message
  | .expected what => s!"expected {what}"
  | .expectedExpression => "expected expression"
  | .invalidAssignmentTarget => "invalid assignment target"
  | .alreadyDeclared name => s!"variable '{name}' already declared in this scope"
  | .readInOwnInitializer name =>
    s!"cannot read local variable '{name}' in its own initializer"
  | .tooManyConstants => "too many constants in one chunk"
  | .tooManyLocals => "too many local variables"
  | .tooDeeplyNested limit => s!"nesting too deep (maximum {limit} levels)"

structure Diagnostic where
  error : CompileError
  pos : Pos
  /-- The text of the token at fault; none at the end of the script and for an `error` token. -/
  lexeme : Option String
deriving DecidableEq, Repr

namespace Diagnostic

def ofToken (error : CompileError) (token : Token) : Diagnostic :=
  { error
    pos := token.pos
    lexeme := if token.kind = .eof ∨ token.kind = .error then none else some token.lexeme }

/-- The words that point out the token at fault. The message of a `lex` error needs none. -/
def place (d : Diagnostic) : String :=
  match d.error, d.lexeme with
  | .lex _, _ => ""
  | _, none => " at end"
  | _, some lexeme =>
    if lexeme = "\n" ∨ lexeme = "" then " at end of line" else s!" at '{lexeme}'"

def text (d : Diagnostic) : String :=
  s!"{d.pos.text} Error{d.place}: {d.error.message}"

/-- The diagnostics of a script, a line for each. -/
def textAll (ds : List Diagnostic) : String :=
  "\n".intercalate (ds.map text)

end Diagnostic

end Scriptlet
