import Scriptlet.Bytecode.Pool
import Scriptlet.Program.Diagnostic
import Scriptlet.Program.Scope
import Scriptlet.Program.Tree
import Scriptlet.Value.Numeral

/-! # Reading programs

Statements are read by recursive descent and expressions by operator precedence. Scopes and the
constant pool are kept along the way, because an error in either is reported in its turn.

The first error makes the parser panic: it reads on but reports no further error. With recovery it
calms down at the end of the statement, after skipping tokens up to a likely start of the next one.
A tree that is read in panic is of no use; nil stands where an expression could not be read.

Expressions and blocks may be nested only so deep, and the levels that are left bound the
recursion. Inside as many open blocks as there are levels an expression is refused before its first
token is read. A loop over such statements may then go on forever without taking a token; reading
fails instead, with the diagnostics so far.
-/

namespace Scriptlet

structure Parser where
  /-- The token that was read last. -/
  previous : Token
  /-- The token to be read next. -/
  current : Token
  /-- The tokens after it. -/
  rest : List Token
  panicking : Bool
  diagnostics : List Diagnostic
  scope : Scope
  pool : Pool

namespace Parser

/-- How many expressions and blocks may be open inside one another. -/
def maxNesting : Nat := 256

/-- Before the first token. -/
def start (tokens : List Token) : Parser :=
  { previous := .placeholder
    current := .placeholder
    rest := tokens
    panicking := false
    diagnostics := []
    scope := .top
    pool := .empty }

/-! ## Errors -/

def reportAt (token : Token) (error : CompileError) (p : Parser) : Parser :=
  if p.panicking then p
  else
    { p with
      panicking := true
      diagnostics := p.diagnostics ++ [.ofToken error token] }

/-- Reports an error at the token that was read last. -/
def report (error : CompileError) (p : Parser) : Parser :=
  p.reportAt p.previous error

/-- Reports an error at the token to be read next. -/
def reportNext (error : CompileError) (p : Parser) : Parser :=
  p.reportAt p.current error

/-! ## Tokens -/

def sees (kind : TokenKind) (p : Parser) : Bool :=
  p.current.kind == kind

/-- Makes the first of `tokens` that is not an `error` token the next one to be read, and reports
those before it. The last token of a script stays. -/
def fetch (p : Parser) : List Token → Parser
  | [] => { p with rest := [] }
  | token :: rest =>
    if token.kind = .error then fetch (p.reportAt token (.lex token.lexeme)) rest
    else { p with current := token, rest := rest }

/-- Reads a token. -/
def advance (p : Parser) : Parser :=
  { p with previous := p.current }.fetch p.rest

/-- Reads a token of the kind, or reports that it is missing and reads none. -/
def expect (kind : TokenKind) (what : String) (p : Parser) : Parser :=
  if p.sees kind then p.advance else p.reportNext (.expected what)

/-! ## Constants and variables -/

/-- Makes sure that the pool holds a constant. -/
def intern (value : Value) (p : Parser) : Parser :=
  match p.pool.add (.ofValue value) with
  | (some _, pool) => { p with pool }
  | (none, _) => p.report .tooManyConstants

/-- Enters a block variable. One that is declared twice is entered again; one too many is not
entered. -/
def declareLocal (name : String) (p : Parser) : Parser :=
  let p := if p.scope.declares name then p.report (.alreadyDeclared name) else p
  if p.scope.size < Scope.capacity then { p with scope := p.scope.push name }
  else p.report .tooManyLocals

/-! ## Expressions -/

/-- Reads an expression whose operators bind at least as tightly as the given precedence. -/
abbrev ExprReader := Precedence → Parser → Expr × Parser

/-- Stands in for an expression that could not be read. -/
def missing (p : Parser) : Expr :=
  .literal .nil p.previous.pos

def literal (value : Value) (p : Parser) : Expr × Parser :=
  (.literal value p.previous.pos, p)

/-- A numeral or a string, whose value is kept in the pool. -/
def constant (value : Value) (p : Parser) : Expr × Parser :=
  (p.intern value).literal value

def group (read : ExprReader) (p : Parser) : Expr × Parser :=
  let (inner, p) := read .assign p
  let p := p.expect .rightParen "')' after expression"
  (.group inner p.previous.pos, p)

def unary (read : ExprReader) (op : UnaryOp) (p : Parser) : Expr × Parser :=
  let (operand, p) := read .unary p
  (.unary op operand, p)

/-- A variable, or an assignment to it where one may stand. -/
def named (read : ExprReader) (assignable : Bool) (p : Parser) : Expr × Parser :=
  let name := p.previous
  let binding := p.scope.resolve name.lexeme
  if binding = .uninitialized then (p.missing, p.report (.readInOwnInitializer name.lexeme))
  else
    let p := if binding = .global then p.intern (.str name.lexeme) else p
    if assignable && p.sees .equal then
      let (value, p) := read .assign p.advance
      (.assign name.lexeme value, p)
    else (.var name.lexeme name.pos, p)

/-- The text between the quotes. -/
def unquote (lexeme : String) : String :=
  String.ofList lexeme.toList.tail.dropLast

/-- The expression that starts with the token read last, up to the first binary operator; none if
no expression starts so. -/
def operand? (read : ExprReader) (assignable : Bool) (p : Parser) : Option (Expr × Parser) :=
  match p.previous.kind with
  | .leftParen => some (p.group read)
  | .minus => some (p.unary read .negate)
  | .bang => some (p.unary read .not)
  | .identifier => some (p.named read assignable)
  | .string => some (p.constant (.str (unquote p.previous.lexeme)))
  | .number => some (p.constant (.ofNumeral p.previous.lexeme.toList))
  | .kwTrue => some (p.literal (.bool true))
  | .kwFalse => some (p.literal (.bool false))
  | .kwNil => some (p.literal .nil)
  | _ => none

/-- Extends `left` by the binary operators that follow it and bind tightly enough. Every round
takes an operator off the tokens that follow, so there are no more rounds than such tokens. -/
def operators (read : ExprReader) (least : Precedence) :
    (rounds : List Token) → Expr → Parser → Expr × Parser
  | [], left, p => (left, p)
  | _ :: rounds, left, p =>
    match p.current.kind.binaryOp? with
    | none => (left, p)
    | some op =>
      if least ≤ op.precedence then
        let (right, p) := read op.precedence.next p.advance
        operators read least rounds (.binary op left right) p
      else (left, p)

def expression : (levels : Nat) → ExprReader
  | 0, _, p => (p.missing, p.report (.tooDeeplyNested maxNesting))
  | levels + 1, least, p =>
    let p := p.advance
    let assignable := decide (least ≤ .assign)
    match p.operand? (expression levels) assignable with
    | none => (p.missing, p.report .expectedExpression)
    | some (left, p) =>
      let (e, p) := operators (expression levels) least p.rest left p
      if assignable && p.sees .equal then (e, p.advance.report .invalidAssignmentTarget) else (e, p)

/-! ## Statements -/

/-- Reads a statement, unless reading would never end. -/
abbrev StmtReader := Parser → Except (List Diagnostic) (Stmt × Parser)

/-- Stands in for a statement that could not be read. -/
def missingStmt (p : Parser) : Stmt :=
  .expr p.missing p.previous.pos

def initializer (levels : Nat) (p : Parser) : Option Expr × Parser :=
  if p.sees .equal then
    let (value, p) := expression levels .assign p.advance
    (some value, p)
  else (none, p)

/-- The rest of a declaration. -/
def declare (levels : Nat) (p : Parser) : Stmt × Parser :=
  if p.sees .identifier then
    let p := p.advance
    let name := p.previous
    let isGlobal := p.scope.depth = 0
    let p := if isGlobal then p.intern (.str name.lexeme) else p.declareLocal name.lexeme
    let (initial, p) := p.initializer levels
    let p := p.expect .semicolon "';' after variable declaration"
    let p := if isGlobal then p else { p with scope := p.scope.settle }
    (.decl name.lexeme name.pos initial p.previous.pos, p)
  else (p.missingStmt, p.reportNext (.expected "variable name after 'decl'"))

/-- What a print statement has between its parentheses. -/
def argument (levels : Nat) (p : Parser) : Option Expr × Parser :=
  if p.sees .rightParen then (none, p)
  else
    let (value, p) := expression levels .assign p
    (some value, p)

/-- The rest of a print statement. -/
def print (levels : Nat) (p : Parser) : Stmt × Parser :=
  let p := p.expect .leftParen "'(' after 'print'"
  let opening := p.previous.pos
  let (argument, p) := p.argument levels
  let p := p.expect .rightParen "')' after value"
  let p := p.expect .semicolon "';' after value"
  (.print argument opening p.previous.pos, p)

def exprStmt (levels : Nat) (p : Parser) : Stmt × Parser :=
  let (value, p) := expression levels .assign p
  let p := p.expect .semicolon "';' after expression"
  (.expr value p.previous.pos, p)

/-- A statement that is not a block. -/
def simple (levels : Nat) (p : Parser) : Stmt × Parser :=
  if p.sees .kwPrint then p.advance.print levels else p.exprStmt levels

/-- Skips tokens up to a likely start of a statement. Every round takes a token. -/
def skipTo : (rounds : List Token) → Parser → Parser
  | [], p => p
  | _ :: rounds, p =>
    if p.sees .eof || p.previous.kind == .semicolon || p.current.kind.startsStatement then p
    else skipTo rounds p.advance

/-- Ends the panic after a bad statement. -/
def recover (p : Parser) : Parser :=
  { p with panicking := false }.skipTo p.rest

/-- A declaration, or a statement as `read` reads it. -/
def declarationOr (recovery : Bool) (levels : Nat) (read : StmtReader) : StmtReader := fun p => do
  let (s, p) ← if p.sees .kwDecl then .ok (p.advance.declare levels) else read p
  return (s, if recovery && p.panicking then p.recover else p)

/-- Reads statements up to a token at which to stop. If every statement takes a token, there are no
more of them than tokens that follow; once there have been, some statement took none, and so will
every later one. -/
def statements (read : StmtReader) (stops : TokenKind → Bool) :
    (rounds : List Token) → Array Stmt → Parser →
      Except (List Diagnostic) (Array Stmt × Parser)
  | rounds, body, p =>
    if stops p.current.kind then .ok (body, p)
    else
      match rounds with
      | [] => .error p.diagnostics
      | _ :: rounds => do
        let (s, p) ← read p
        statements read stops rounds (body.push s) p

/-- The rest of a block. -/
def block (read : StmtReader) : StmtReader := fun p => do
  let p := { p with scope := p.scope.enter }
  let (body, p) ← statements read (fun kind => kind == .rightBrace || kind == .eof) p.rest #[] p
  let p := p.expect .rightBrace "'\x7d' after block"
  return (.block body.toList p.previous.pos, { p with scope := p.scope.leave })

def statement (recovery : Bool) : (levels : Nat) → StmtReader
  | 0, p =>
    if p.sees .leftBrace then
      let p := p.advance
      .ok (p.missingStmt, p.report (.tooDeeplyNested maxNesting))
    else .ok (p.simple 0)
  | levels + 1, p =>
    if p.sees .leftBrace then
      block (declarationOr recovery levels (statement recovery levels)) p.advance
    else .ok (p.simple (levels + 1))

def declaration (recovery : Bool) (levels : Nat) : StmtReader :=
  declarationOr recovery levels (statement recovery levels)

end Parser

/-- Reads a whole script. The parser that is left holds the diagnostics and the pool. -/
def Program.ofTokens (recovery : Bool) (tokens : List Token) :
    Except (List Diagnostic) (Program × Parser) := do
  let p := (Parser.start tokens).advance
  let read := Parser.declaration recovery Parser.maxNesting
  let (body, p) ← Parser.statements read (· == .eof) p.rest #[] p
  return (⟨body.toList, p.current.pos⟩, p)

end Scriptlet
