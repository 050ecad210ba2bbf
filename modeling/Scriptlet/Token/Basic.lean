import Scriptlet.Position
import Scriptlet.Token.Kind

/-! # Tokens

A token has a kind, the text it was read from and the position of its first character. The text of
an `error` token is a message instead, and that of a semicolon that a line end stands for is the
line end, or nothing at the end of the script.
-/

namespace Scriptlet

structure Token where
  kind : TokenKind
  lexeme : String
  pos : Pos
deriving DecidableEq, Repr, Inhabited

namespace Token

/-- What stands in for a token before the first one has been read. -/
def placeholder : Token := ⟨.eof, "", .start⟩

/-- Whether a semicolon was inserted rather than written. -/
def isSynthetic (t : Token) : Bool :=
  t.kind == .semicolon && t.lexeme != ";"

/-- The token as messages describe it. -/
def text (t : Token) : String :=
  if t.kind = .eof then "end of input"
  else if t.kind = .error then s!"error: {t.lexeme}"
  else if t.isSynthetic then "end of line"
  else s!"'{t.lexeme}'"

end Token

end Scriptlet
