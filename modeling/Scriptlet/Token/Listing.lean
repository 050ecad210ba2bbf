import Scriptlet.Text.Column
import Scriptlet.Token.Lexer

/-! # Listing tokens

A table of the tokens of a script, a line for each: position, kind, and the token itself.
-/

namespace Scriptlet.Token

def listingLine (t : Token) : String :=
  Text.alignRight ' ' 4 (toString t.pos.line) ++ ":" ++
    Text.alignLeft 4 (toString t.pos.column) ++ " " ++
    Text.alignLeft 14 t.kind.label ++ " " ++ t.text ++ "\n"

/-- The tokens of `source`, including the last one, `eof`. -/
def listing (source : String) : String :=
  (ofSource source).foldl (fun table t => table ++ t.listingLine) ""

end Scriptlet.Token
