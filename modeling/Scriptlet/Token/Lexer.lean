import Scriptlet.Token.Basic
import Scriptlet.Token.Lexeme

/-! # Reading tokens

A lexer stands somewhere in a script and hands out its tokens one by one. Blanks and comments
separate tokens. A line end, or the end of the script, counts as a semicolon where a statement may
end, and is a blank elsewhere. After the last token the lexer hands out `eof` forever.
-/

namespace Scriptlet

structure Lexer where
  /-- The characters that have not been read. -/
  rest : List Char
  /-- Where they start. -/
  pos : Pos
  /-- Whether a statement may end after the last token. -/
  pending : Bool
deriving DecidableEq, Repr

namespace Lexer

def ofString (source : String) : Lexer := ⟨source.toList, .start, false⟩

/-- Passes over blanks and comments, and over line ends unless `pending` is set. `comment` tells
whether `cs` starts inside a comment, which ends with its line. -/
def skip (pending comment : Bool) (pos : Pos) : List Char → Pos × List Char
  | [] => (pos, [])
  | c :: cs =>
    if c = '\n' then
      if pending then (pos, c :: cs) else skip pending false (pos.after c) cs
    else if comment || c == ' ' || c == '\t' || c == '\r' then skip pending comment (pos.after c) cs
    else if c = '#' then skip pending true (pos.after c) cs
    else (pos, c :: cs)

/-- Hands out a token of kind `kind`, after which `rest` is left to read at `after`. -/
def emit (kind : TokenKind) (lexeme : String) (pos after : Pos) (rest : List Char) :
    Token × Lexer :=
  (⟨kind, lexeme, pos⟩, ⟨rest, after, kind.endsStatement⟩)

def next (lexer : Lexer) : Token × Lexer :=
  match skip lexer.pending false lexer.pos lexer.rest with
  | (pos, []) => emit (if lexer.pending then .semicolon else .eof) "" pos pos []
  | (pos, '\n' :: cs) => emit .semicolon "\n" pos (pos.after '\n') cs
  | (pos, c :: cs) =>
    let lexeme := Lexeme.read c cs
    let after := pos.afterAll lexeme.text
    match lexeme.kind with
    | .ok kind => emit kind (String.ofList lexeme.text) pos after lexeme.rest
    | .error e => emit .error e.message pos after lexeme.rest

/-- Reads up to `count` tokens and stops early at `eof`, which is the last one then. `acc` holds the
tokens before them. -/
def collect : (count : Nat) → Lexer → Array Token → Array Token × Lexer
  | 0, lexer, acc => (acc, lexer)
  | count + 1, lexer, acc =>
    let (token, lexer) := lexer.next
    if token.kind = .eof then (acc.push token, lexer) else collect count lexer (acc.push token)

/-- All tokens that are left, `eof` included. Every token but two takes a character: the semicolon
at the end of the script and `eof`. -/
def remaining (lexer : Lexer) : Array Token × Lexer :=
  lexer.collect (lexer.rest.length + 2) #[]

/-- All tokens that are left before `eof`. -/
def tokenize (lexer : Lexer) : Array Token × Lexer :=
  let (tokens, lexer) := lexer.remaining
  (tokens.pop, lexer)

end Lexer

/-- A lexer that is asked for tokens until it has handed out `eof`. -/
structure TokenStream where
  lexer : Lexer
  ended : Bool
deriving DecidableEq, Repr

namespace TokenStream

def ofString (source : String) : TokenStream := ⟨.ofString source, false⟩

/-- The next token, `eof` included, and then none. -/
def next? (stream : TokenStream) : Option Token × TokenStream :=
  if stream.ended then (none, stream)
  else
    let (token, lexer) := stream.lexer.next
    (some token, ⟨lexer, token.kind == .eof⟩)

end TokenStream

/-- The tokens of a script; the last one is `eof`. -/
def Token.ofSource (source : String) : Array Token :=
  (Lexer.ofString source).remaining.1

end Scriptlet
