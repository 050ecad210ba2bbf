/-! # Kinds of tokens

The kinds of token of a script, the words that are reserved, and the kinds after which a statement
may end.
-/

namespace Scriptlet

inductive TokenKind where
  | leftParen
  | rightParen
  | leftBrace
  | rightBrace
  | comma
  | dot
  | minus
  | plus
  | semicolon
  | slash
  | star
  | colon
  | bang
  | bangEqual
  | equal
  | equalEqual
  | greater
  | greaterEqual
  | less
  | lessEqual
  | identifier
  | number
  | string
  | kwIf
  | kwFor
  | kwElse
  | kwDecl
  | kwPrint
  | kwAnd
  | kwOr
  | kwNil
  | kwTrue
  | kwFalse
  | kwReturn
  | kwWhile
  | kwFn
  /-- Characters that form no token. -/
  | error
  /-- The end of the script. -/
  | eof
  | comment
deriving DecidableEq, Repr, Inhabited

namespace TokenKind

/-- How a token of the kind is spelled, or a word for kinds with many spellings. -/
def name : TokenKind → String
  | .leftParen => "("
  | .rightParen => ")"
  | .leftBrace => "\x7b"
  | .rightBrace => "\x7d"
  | .comma => ","
  | .dot => "."
  | .minus => "-"
  | .plus => "+"
  | .semicolon => ";"
  | .slash => "/"
  | .star => "*"
  | .colon => ":"
  | .bang => "!"
  | .bangEqual => "!="
  | .equal => "="
  | .equalEqual => "=="
  | .greater => ">"
  | .greaterEqual => ">="
  | .less => "<"
  | .lessEqual => "<="
  | .identifier => "IDENTIFIER"
  | .number => "NUMBER"
  | .string => "STRING"
  | .kwIf => "if"
  | .kwFor => "for"
  | .kwElse => "else"
  | .kwDecl => "decl"
  | .kwPrint => "print"
  | .kwAnd => "and"
  | .kwOr => "or"
  | .kwNil => "nil"
  | .kwTrue => "true"
  | .kwFalse => "false"
  | .kwReturn => "return"
  | .kwWhile => "while"
  | .kwFn => "fn"
  | .error => "ERROR"
  | .eof => "EOF"
  | .comment => "COMMENT"

/-- The kind's column in a token listing. -/
def label : TokenKind → String
  | .leftParen => "LeftParen"
  | .rightParen => "RightParen"
  | .leftBrace => "LeftBrace"
  | .rightBrace => "RightBrace"
  | .comma => "Comma"
  | .dot => "Dot"
  | .minus => "Minus"
  | .plus => "Plus"
  | .semicolon => "Semicolon"
  | .slash => "Slash"
  | .star => "Star"
  | .colon => "Colon"
  | .bang => "Bang"
  | .bangEqual => "BangEqual"
  | .equal => "Equal"
  | .equalEqual => "EqualEqual"
  | .greater => "Greater"
  | .greaterEqual => "GreaterEqual"
  | .less => "Less"
  | .lessEqual => "LessEqual"
  | .identifier => "Identifier"
  | .number => "Number"
  | .string => "String"
  | .kwIf => "If"
  | .kwFor => "For"
  | .kwElse => "Else"
  | .kwDecl => "Decl"
  | .kwPrint => "Print"
  | .kwAnd => "And"
  | .kwOr => "Or"
  | .kwNil => "Nil"
  | .kwTrue => "True"
  | .kwFalse => "False"
  | .kwReturn => "Return"
  | .kwWhile => "While"
  | .kwFn => "Fn"
  | .error => "Error"
  | .eof => "Eof"
  | .comment => "Comment"

/-- The reserved words. -/
def keywords : List TokenKind :=
  [.kwIf, .kwFor, .kwElse, .kwDecl, .kwPrint, .kwAnd, .kwOr, .kwNil, .kwTrue, .kwFalse, .kwReturn,
   .kwWhile, .kwFn]

/-- The kind of a reserved word. -/
def ofKeyword? (word : String) : Option TokenKind :=
  keywords.find? (·.name == word)

/-- Whether a statement may end after a token of the kind, so that a line end after it counts as a
semicolon. -/
def endsStatement : TokenKind → Bool
  | .identifier | .number | .string | .rightParen | .kwTrue | .kwFalse | .kwNil => true
  | _ => false

/-- Whether a token of the kind opens a statement; after an error, reading resumes there. -/
def startsStatement : TokenKind → Bool
  | .kwDecl | .kwPrint | .leftBrace | .kwIf | .kwFor | .kwWhile | .kwFn | .kwReturn => true
  | _ => false

end TokenKind

end Scriptlet
