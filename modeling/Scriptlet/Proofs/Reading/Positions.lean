import Scriptlet.Proofs.Joining.Trees
import Scriptlet.Proofs.Reading.Termination

/-! # Reading does not depend on positions

Positions are passed on to trees and diagnostics, and no decision depends on them. So to forget the
positions of the tokens and then to read them is to read them and then to forget the positions of
what was read. Each part of the reader is shown to commute with forgetting.
-/

namespace Scriptlet

/-- The same token, with nothing known about its position. -/
def Token.bare (token : Token) : Token :=
  { token with pos := .unknown }

@[simp] theorem Token.kind_bare (token : Token) : token.bare.kind = token.kind := rfl

@[simp] theorem Token.lexeme_bare (token : Token) : token.bare.lexeme = token.lexeme := rfl

def Diagnostic.bare (d : Diagnostic) : Diagnostic :=
  { d with pos := .unknown }

theorem Stmt.bareAll_eq_map (body : List Stmt) : Stmt.bareAll body = body.map Stmt.bare := by
  induction body with
  | nil => rfl
  | cons s rest ih => rw [Stmt.bareAll, ih, List.map_cons]

namespace Parser

def bare (p : Parser) : Parser :=
  { p with
    previous := p.previous.bare
    current := p.current.bare
    rest := p.rest.map Token.bare
    diagnostics := p.diagnostics.map Diagnostic.bare }

/-! ## Errors and tokens -/

section Tokens

variable (p : Parser)

@[simp] theorem previous_bare : p.bare.previous = p.previous.bare := rfl

@[simp] theorem current_bare : p.bare.current = p.current.bare := rfl

@[simp] theorem rest_bare : p.bare.rest = p.rest.map Token.bare := rfl

@[simp] theorem panicking_bare : p.bare.panicking = p.panicking := rfl

@[simp] theorem scope_bare : p.bare.scope = p.scope := rfl

@[simp] theorem pool_bare : p.bare.pool = p.pool := rfl

@[simp] theorem sees_bare (kind : TokenKind) : p.bare.sees kind = p.sees kind := rfl

@[simp] theorem reportAt_bare (token : Token) (error : CompileError) :
    p.bare.reportAt token.bare error = (p.reportAt token error).bare := by
  unfold reportAt
  rw [panicking_bare]
  split
  · rfl
  · simp only [bare, List.map_append]
    rfl

@[simp] theorem report_bare (error : CompileError) :
    p.bare.report error = (p.report error).bare :=
  p.reportAt_bare p.previous error

@[simp] theorem reportNext_bare (error : CompileError) :
    p.bare.reportNext error = (p.reportNext error).bare :=
  p.reportAt_bare p.current error

theorem fetch_bare (tokens : List Token) :
    p.bare.fetch (tokens.map Token.bare) = (p.fetch tokens).bare := by
  induction tokens generalizing p with
  | nil => rfl
  | cons token rest ih =>
      rw [List.map_cons, fetch, fetch, Token.kind_bare]
      split
      · rw [← ih, ← reportAt_bare]
        rfl
      · rfl

@[simp] theorem advance_bare : p.bare.advance = p.advance.bare :=
  fetch_bare { p with previous := p.current } p.rest

@[simp] theorem expect_bare (kind : TokenKind) (what : String) :
    p.bare.expect kind what = (p.expect kind what).bare := by
  unfold expect
  rw [sees_bare]
  split
  · exact p.advance_bare
  · exact p.reportNext_bare _

end Tokens

/-! ## Constants and variables -/

@[simp] theorem intern_bare (value : Value) (p : Parser) :
    p.bare.intern value = (p.intern value).bare := by
  unfold intern
  rw [pool_bare]
  split
  · rfl
  · exact p.report_bare _

@[simp] theorem declareLocal_bare (name : String) (p : Parser) :
    p.bare.declareLocal name = (p.declareLocal name).bare := by
  unfold declareLocal
  have hreport : (if p.bare.scope.declares name then p.bare.report (.alreadyDeclared name)
      else p.bare) =
      (if p.scope.declares name then p.report (.alreadyDeclared name) else p).bare := by
    rw [scope_bare]
    split
    · exact p.report_bare _
    · rfl
  rw [hreport]
  generalize (if p.scope.declares name then p.report (.alreadyDeclared name) else p) = q
  dsimp only
  rw [scope_bare]
  split
  · rfl
  · exact q.report_bare _

/-! ## Expressions -/

/-- What is read does not depend on positions. -/
def ExprReader.IgnoresPositions (read : ExprReader) : Prop :=
  ∀ least p, read least p.bare = (read least p).map Expr.bare bare

theorem constant_bare (value : Value) (p : Parser) :
    p.bare.constant value = (p.constant value).map Expr.bare bare := by
  unfold constant
  rw [intern_bare]
  rfl

section Readers

variable {read : ExprReader} (hread : read.IgnoresPositions) (p : Parser)

include hread

theorem group_bare : p.bare.group read = (p.group read).map Expr.bare bare := by
  unfold group
  rw [hread]
  dsimp only [Prod.map]
  rw [expect_bare]
  rfl

theorem unary_bare (op : UnaryOp) :
    p.bare.unary read op = (p.unary read op).map Expr.bare bare := by
  unfold unary
  rw [hread]
  rfl

theorem named_bare (assignable : Bool) :
    p.bare.named read assignable = (p.named read assignable).map Expr.bare bare := by
  unfold named
  dsimp only
  rw [previous_bare, Token.lexeme_bare, scope_bare]
  split
  · rw [report_bare]
    rfl
  · have hintern : (if p.scope.resolve p.previous.lexeme = .global
        then p.bare.intern (.str p.previous.lexeme) else p.bare) =
        (if p.scope.resolve p.previous.lexeme = .global then p.intern (.str p.previous.lexeme)
          else p).bare := by
      split
      · exact p.intern_bare _
      · rfl
    rw [hintern]
    generalize (if p.scope.resolve p.previous.lexeme = .global
      then p.intern (.str p.previous.lexeme) else p) = q
    rw [sees_bare]
    split
    · rw [advance_bare, hread]
      rfl
    · rfl

theorem operand?_bare (assignable : Bool) :
    p.bare.operand? read assignable =
      (p.operand? read assignable).map (Prod.map Expr.bare bare) := by
  unfold operand?
  rw [previous_bare, Token.kind_bare]
  split
  · exact congrArg some (group_bare hread p)
  · exact congrArg some (unary_bare hread p _)
  · exact congrArg some (unary_bare hread p _)
  · exact congrArg some (named_bare hread p assignable)
  · exact congrArg some (constant_bare _ p)
  · exact congrArg some (constant_bare _ p)
  · rfl
  · rfl
  · rfl
  · rfl

theorem operators_bare (least : Precedence) (rounds : List Token) (left : Expr) :
    operators read least (rounds.map Token.bare) left.bare p.bare =
      (operators read least rounds left p).map Expr.bare bare := by
  induction rounds generalizing left p with
  | nil => rfl
  | cons token rounds ih =>
      rw [List.map_cons, operators, operators, current_bare, Token.kind_bare]
      split
      · rfl
      next op _ =>
        split
        · rw [advance_bare, hread]
          rcases read op.precedence.next p.advance with ⟨right, q⟩
          exact ih q (.binary op left right)
        · rfl

end Readers

theorem expression_bare (levels : Nat) : (expression levels).IgnoresPositions := by
  induction levels with
  | zero =>
      intro least p
      rw [expression, expression, report_bare]
      rfl
  | succ levels ih =>
      intro least p
      rw [expression, expression, advance_bare]
      dsimp only
      rw [operand?_bare ih]
      cases p.advance.operand? (expression levels) (decide (least ≤ .assign)) with
      | none =>
          rw [report_bare]
          rfl
      | some result =>
          rcases result with ⟨left, q⟩
          dsimp only [Option.map, Prod.map]
          rw [rest_bare, operators_bare ih]
          rcases operators (expression levels) least q.rest left q with ⟨e, q⟩
          cases hassign : decide (least ≤ .assign) && q.sees .equal with
          | true => simp only [Prod.map, sees_bare, hassign, if_true, advance_bare, report_bare]
          | false => simp only [Prod.map, sees_bare, hassign, Bool.false_eq_true, if_false]

/-! ## Statements -/

section Levels

variable (levels : Nat) (p : Parser)

theorem initializer_bare :
    p.bare.initializer levels = (p.initializer levels).map (Option.map Expr.bare) bare := by
  unfold initializer
  rw [sees_bare]
  split
  · rw [advance_bare, expression_bare]
    rfl
  · rfl

theorem argument_bare :
    p.bare.argument levels = (p.argument levels).map (Option.map Expr.bare) bare := by
  unfold argument
  rw [sees_bare]
  split
  · rfl
  · rw [expression_bare]
    rfl

theorem declare_bare : p.bare.declare levels = (p.declare levels).map Stmt.bare bare := by
  unfold declare
  rw [sees_bare]
  split
  · rw [advance_bare]
    dsimp only
    generalize p.advance = q
    have hentered : (if q.bare.scope.depth = 0 then q.bare.intern (.str q.bare.previous.lexeme)
        else q.bare.declareLocal q.bare.previous.lexeme) =
        (if q.scope.depth = 0 then q.intern (.str q.previous.lexeme)
          else q.declareLocal q.previous.lexeme).bare := by
      rw [scope_bare, previous_bare, Token.lexeme_bare]
      split
      · exact q.intern_bare _
      · exact q.declareLocal_bare _
    rw [hentered]
    generalize (if q.scope.depth = 0 then q.intern (.str q.previous.lexeme)
      else q.declareLocal q.previous.lexeme) = entered
    rw [initializer_bare]
    rcases entered.initializer levels with ⟨initial, q'⟩
    dsimp only [Prod.map]
    rw [expect_bare, scope_bare]
    split
    · rfl
    · rfl
  · rw [reportNext_bare]
    rfl

theorem print_bare : p.bare.print levels = (p.print levels).map Stmt.bare bare := by
  unfold print
  rw [expect_bare]
  dsimp only
  rw [argument_bare]
  dsimp only [Prod.map]
  rw [expect_bare, expect_bare]
  rfl

theorem exprStmt_bare : p.bare.exprStmt levels = (p.exprStmt levels).map Stmt.bare bare := by
  unfold exprStmt
  rw [expression_bare]
  dsimp only [Prod.map]
  rw [expect_bare]
  rfl

theorem simple_bare : p.bare.simple levels = (p.simple levels).map Stmt.bare bare := by
  unfold simple
  rw [sees_bare]
  split
  · rw [advance_bare, print_bare]
  · exact exprStmt_bare levels p

end Levels

theorem skipTo_bare (rounds : List Token) (p : Parser) :
    p.bare.skipTo (rounds.map Token.bare) = (p.skipTo rounds).bare := by
  induction rounds generalizing p with
  | nil => rfl
  | cons token rounds ih =>
      rw [List.map_cons, skipTo, skipTo, sees_bare, previous_bare, current_bare, Token.kind_bare,
        Token.kind_bare]
      split
      · rfl
      · rw [advance_bare, ih]

theorem recover_bare (p : Parser) : p.bare.recover = p.recover.bare :=
  skipTo_bare p.rest { p with panicking := false }

/-- What has been read, with nothing known about positions, and likewise the diagnostics if reading
would never end. -/
def bareResult {α : Type} (f : α → α) :
    Except (List Diagnostic) (α × Parser) → Except (List Diagnostic) (α × Parser)
  | .ok result => .ok (result.map f bare)
  | .error diagnostics => .error (diagnostics.map Diagnostic.bare)

def StmtReader.IgnoresPositions (read : StmtReader) : Prop :=
  ∀ p, read p.bare = bareResult Stmt.bare (read p)

/-- What is done to a result commutes with forgetting positions if it does where there is one. -/
theorem map_bareResult {α β : Type} {f : α → α} {g : β → β} {k : α × Parser → β × Parser}
    (hk : ∀ a p, k (f a, p.bare) = (k (a, p)).map g bare)
    (result : Except (List Diagnostic) (α × Parser)) :
    (bareResult f result).map k = bareResult g (result.map k) := by
  cases result with
  | error diagnostics => rfl
  | ok result => exact congrArg Except.ok (hk result.1 result.2)

theorem block_eq (read : StmtReader) (p : Parser) :
    block read p =
      (statements read (fun kind => kind == .rightBrace || kind == .eof) p.rest #[]
        { p with scope := p.scope.enter }).map fun result =>
          let p := result.2.expect .rightBrace "'\x7d' after block"
          (.block result.1.toList p.previous.pos, { p with scope := p.scope.leave }) := by
  unfold block
  dsimp only
  cases statements read (fun kind => kind == .rightBrace || kind == .eof) p.rest #[]
      { p with scope := p.scope.enter } <;> rfl

section Readers

variable {read : StmtReader} (hread : read.IgnoresPositions)

include hread

theorem declarationOr_bare (recovery : Bool) (levels : Nat) :
    (declarationOr recovery levels read).IgnoresPositions := by
  intro p
  rw [declarationOr_eq, declarationOr_eq]
  have hstmt : (if p.bare.sees .kwDecl then .ok (p.bare.advance.declare levels) else read p.bare) =
      bareResult Stmt.bare (if p.sees .kwDecl then .ok (p.advance.declare levels) else read p) := by
    rw [sees_bare, advance_bare, declare_bare, hread]
    split <;> rfl
  rw [hstmt]
  apply map_bareResult
  intro s q
  dsimp only
  rw [panicking_bare]
  split
  · rw [recover_bare]
    rfl
  · rfl

theorem statements_bare (stops : TokenKind → Bool) (rounds : List Token) (body : Array Stmt)
    (p : Parser) :
    statements read stops (rounds.map Token.bare) (body.map Stmt.bare) p.bare =
      bareResult (Array.map Stmt.bare) (statements read stops rounds body p) := by
  induction rounds generalizing body p with
  | nil =>
      rw [List.map_nil, statements, statements, current_bare, Token.kind_bare]
      split
      · rfl
      · rfl
  | cons token rounds ih =>
      rw [List.map_cons, statements, statements, current_bare, Token.kind_bare]
      split
      · rfl
      · rw [hread]
        cases read p with
        | error diagnostics => rfl
        | ok result =>
            have hnext := ih (body.push result.1) result.2
            rw [Array.map_push] at hnext
            exact hnext

theorem statements_empty_bare (stops : TokenKind → Bool) (p : Parser) :
    statements read stops p.bare.rest #[] p.bare =
      bareResult (Array.map Stmt.bare) (statements read stops p.rest #[] p) := by
  rw [← statements_bare hread, Array.map_empty]
  rfl

theorem block_bare : (block read).IgnoresPositions := by
  intro p
  rw [block_eq, block_eq]
  have hbody := statements_empty_bare hread (fun kind => kind == .rightBrace || kind == .eof)
    { p with scope := p.scope.enter }
  refine (congrArg (Except.map _) hbody).trans ?_
  apply map_bareResult
  intro body q
  dsimp only
  rw [expect_bare, Array.toList_map, ← Stmt.bareAll_eq_map]
  rfl

end Readers

theorem statement_bare (recovery : Bool) (levels : Nat) :
    (statement recovery levels).IgnoresPositions := by
  induction levels with
  | zero =>
      intro p
      rw [statement, statement, sees_bare]
      split
      · dsimp only
        rw [advance_bare, report_bare]
        rfl
      · exact congrArg Except.ok (simple_bare 0 p)
  | succ levels ih =>
      intro p
      rw [statement, statement, sees_bare]
      split
      · rw [advance_bare]
        exact block_bare (declarationOr_bare ih recovery levels) p.advance
      · exact congrArg Except.ok (simple_bare (levels + 1) p)

theorem declaration_bare (recovery : Bool) (levels : Nat) :
    (declaration recovery levels).IgnoresPositions :=
  declarationOr_bare (statement_bare recovery levels) recovery levels

theorem start_bare {tokens others : List Token}
    (htokens : others.map Token.bare = tokens.map Token.bare) :
    (start others).bare = (start tokens).bare := by
  unfold bare start
  dsimp only
  rw [htokens]

end Parser

/-! ## Scripts -/

namespace Program

theorem ofTokens_eq (recovery : Bool) (tokens : List Token) :
    ofTokens recovery tokens =
      (Parser.statements (Parser.declaration recovery Parser.maxNesting) (· == .eof)
        (Parser.start tokens).advance.rest #[] (Parser.start tokens).advance).map fun result =>
          (⟨result.1.toList, result.2.current.pos⟩, result.2) := by
  unfold ofTokens
  dsimp only
  cases Parser.statements (Parser.declaration recovery Parser.maxNesting) (· == .eof)
      (Parser.start tokens).advance.rest #[] (Parser.start tokens).advance <;> rfl

theorem bareResult_ofTokens (recovery : Bool) (tokens : List Token) :
    Parser.bareResult bare (ofTokens recovery tokens) =
      (Parser.statements (Parser.declaration recovery Parser.maxNesting) (· == .eof)
        (Parser.start tokens).bare.advance.rest #[] (Parser.start tokens).bare.advance).map
          fun result => (⟨result.1.toList, result.2.current.pos⟩, result.2) := by
  rw [ofTokens_eq, Parser.advance_bare,
    Parser.statements_empty_bare (Parser.declaration_bare recovery Parser.maxNesting)]
  refine (Parser.map_bareResult (fun body q => ?_) _).symm
  rw [Array.toList_map, ← Stmt.bareAll_eq_map]
  rfl

/-- Tokens at other positions are read alike. -/
theorem ofTokens_congr {tokens others : List Token}
    (htokens : others.map Token.bare = tokens.map Token.bare) (recovery : Bool) :
    Parser.bareResult bare (ofTokens recovery others) =
      Parser.bareResult bare (ofTokens recovery tokens) := by
  rw [bareResult_ofTokens, bareResult_ofTokens, Parser.start_bare htokens]

end Program

end Scriptlet
