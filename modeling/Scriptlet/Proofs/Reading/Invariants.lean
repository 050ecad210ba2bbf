import Scriptlet.Program.Parser

/-! # Invariants of reading

Reading changes a parser in a few ways only: it reports errors, moves on to later tokens, adds
constants, changes the scope and ends a panic. What survives each of these survives the reading of
expressions and statements, with and without errors in them.
-/

namespace Scriptlet.Parser

/-- A property that survives everything that reading an expression does to a parser. Statements that
neither declare a variable nor open a block do nothing else. -/
structure Steady (P : Parser → Prop) : Prop where
  report : ∀ {p : Parser} (error), P p → P (p.report error)
  reportNext : ∀ {p : Parser} (error), P p → P (p.reportNext error)
  advance : ∀ {p : Parser}, P p → P p.advance
  pool : ∀ {p : Parser} (pool), P p → P { p with pool }

/-- A property that survives this whichever tokens errors are reported at. -/
structure Stable (P : Parser → Prop) : Prop extends Steady P where
  reportAt : ∀ {p : Parser} (token error), P p → P (p.reportAt token error)
  report error h := reportAt _ error h
  reportNext error h := reportAt _ error h

/-- A property that survives everything that reading a statement does to a parser, except that a
panic ends. -/
structure Lasting (P : Parser → Prop) : Prop extends Stable P where
  scope : ∀ {p : Parser} (scope), P p → P { p with scope }

/-- A property that survives everything that reading a statement does to a parser. -/
structure Invariant (P : Parser → Prop) : Prop extends Lasting P where
  calm : ∀ {p : Parser}, P p → P { p with panicking := false }

/-- Reading an expression keeps a property. -/
def ExprReader.Keeps (P : Parser → Prop) (read : ExprReader) : Prop :=
  ∀ least p, P p → P (read least p).2

/-- Reading a statement keeps a property. -/
def StmtReader.Keeps (P : Parser → Prop) (read : StmtReader) : Prop :=
  ∀ p s p', P p → read p = .ok (s, p') → P p'

/-! ## Properties that do not depend on tokens -/

section Tokens

variable {P : Parser → Prop}
  (hreport : ∀ {p : Parser} (token error), P p → P (p.reportAt token error))
  (htokens : ∀ {p : Parser} (previous current rest), P p → P { p with previous, current, rest })

include hreport htokens

theorem fetch_of_tokens {p : Parser} (tokens : List Token) (h : P p) : P (p.fetch tokens) := by
  induction tokens generalizing p with
  | nil => exact htokens p.previous p.current [] h
  | cons token rest ih =>
      rw [Parser.fetch]
      split
      · exact ih (hreport _ _ h)
      · exact htokens p.previous token rest h

theorem Stable.of_tokens (hpool : ∀ {p : Parser} (pool), P p → P { p with pool }) : Stable P where
  reportAt := hreport
  advance {p} h := fetch_of_tokens hreport htokens _ (htokens p.current p.current p.rest h)
  pool := hpool

end Tokens

/-- To skip tokens is to advance again and again. -/
theorem skipTo_of_advance {P : Parser → Prop} (hadvance : ∀ {p : Parser}, P p → P p.advance)
    {p : Parser} (rounds : List Token) (h : P p) : P (p.skipTo rounds) := by
  induction rounds generalizing p with
  | nil => exact h
  | cons _ rounds ih =>
      rw [Parser.skipTo]
      split
      · exact h
      · exact ih (hadvance h)

/-! ## Expressions and their statements -/

namespace Steady

variable {P : Parser → Prop} (hP : Steady P)

include hP

theorem expect {p : Parser} (kind : TokenKind) (what : String) (h : P p) :
    P (p.expect kind what) := by
  unfold Parser.expect
  split
  · exact hP.advance h
  · exact hP.reportNext _ h

theorem intern {p : Parser} (value : Value) (h : P p) : P (p.intern value) := by
  unfold Parser.intern
  split
  · exact hP.pool _ h
  · exact hP.report _ h

theorem named {read : ExprReader} (hread : read.Keeps P) (assignable : Bool) {p : Parser}
    (h : P p) : P (p.named read assignable).2 := by
  unfold Parser.named
  dsimp only
  split
  · exact hP.report _ h
  · have hname : P (if p.scope.resolve p.previous.lexeme = .global then
        p.intern (.str p.previous.lexeme) else p) := by
      split
      · exact hP.intern _ h
      · exact h
    revert hname
    generalize (if p.scope.resolve p.previous.lexeme = .global then
      p.intern (.str p.previous.lexeme) else p) = q
    intro hname
    split
    · exact hread _ _ (hP.advance hname)
    · exact hname

theorem operand? {read : ExprReader} (hread : read.Keeps P) (assignable : Bool) {p p' : Parser}
    {e : Expr} (h : P p) (hoperand : p.operand? read assignable = some (e, p')) : P p' := by
  have hresult : ∀ {result : Expr × Parser}, P result.2 → some result = some (e, p') → P p' := by
    intro result hresult heq
    obtain rfl := Option.some.inj heq
    exact hresult
  unfold Parser.operand? at hoperand
  split at hoperand
  · exact hresult (hP.expect _ _ (hread _ _ h)) hoperand
  · exact hresult (show P (p.unary read .negate).2 from hread _ _ h) hoperand
  · exact hresult (show P (p.unary read .not).2 from hread _ _ h) hoperand
  · exact hresult (hP.named hread assignable h) hoperand
  · exact hresult (hP.intern _ h) hoperand
  · exact hresult (hP.intern _ h) hoperand
  · exact hresult h hoperand
  · exact hresult h hoperand
  · exact hresult h hoperand
  · contradiction

theorem operators {read : ExprReader} (hread : read.Keeps P) (least : Precedence)
    (rounds : List Token) (left : Expr) {p : Parser} (h : P p) :
    P (Parser.operators read least rounds left p).2 := by
  induction rounds generalizing left p with
  | nil => exact h
  | cons _ rounds ih =>
      rw [Parser.operators]
      split
      · exact h
      · split
        · exact ih _ (hread _ _ (hP.advance h))
        · exact h

/-- An expression starts with the token that comes next, unless no level is left. -/
theorem expression_of_advance {levels : Nat} (hread : (Parser.expression levels).Keeps P)
    (least : Precedence) {p : Parser} (h : P p.advance) :
    P (Parser.expression (levels + 1) least p).2 := by
  rw [Parser.expression]
  dsimp only
  split
  · exact hP.report _ h
  next left p' hoperand =>
    have hoperators := hP.operators hread least p'.rest left (hP.operand? hread _ h hoperand)
    split
    · exact hP.report _ (hP.advance hoperators)
    · exact hoperators

theorem expression (levels : Nat) : (Parser.expression levels).Keeps P := by
  induction levels with
  | zero =>
      intro least p h
      exact hP.report _ h
  | succ levels ih =>
      intro least p h
      exact hP.expression_of_advance ih least (hP.advance h)

theorem initializer (levels : Nat) {p : Parser} (h : P p) : P (p.initializer levels).2 := by
  unfold Parser.initializer
  split
  · exact hP.expression levels _ _ (hP.advance h)
  · exact h

theorem argument (levels : Nat) {p : Parser} (h : P p) : P (p.argument levels).2 := by
  unfold Parser.argument
  split
  · exact h
  · exact hP.expression levels _ _ h

theorem print (levels : Nat) {p : Parser} (h : P p) : P (p.print levels).2 :=
  hP.expect _ _ (hP.expect _ _ (hP.argument levels (hP.expect _ _ h)))

theorem simple (levels : Nat) {p : Parser} (h : P p) : P (p.simple levels).2 := by
  unfold Parser.simple
  split
  · exact hP.print levels (hP.advance h)
  · exact hP.expect _ _ (hP.expression levels _ _ h)

theorem simple_of_advance (levels : Nat) {p : Parser} (h : P p.advance) :
    P (p.simple (levels + 1)).2 := by
  unfold Parser.simple
  split
  · exact hP.print (levels + 1) h
  · exact hP.expect _ _ (hP.expression_of_advance (hP.expression levels) _ h)

theorem skipTo {p : Parser} (rounds : List Token) (h : P p) : P (p.skipTo rounds) :=
  skipTo_of_advance (P := P) hP.advance rounds h

end Steady

/-! ## Blocks and declarations -/

/-- Statements end at once, or after one more statement they end in the rounds that are left. -/
theorem statements_cases {read : StmtReader} {stops : TokenKind → Bool} {rounds : List Token}
    {body body' : Array Stmt} {p p' : Parser}
    (hstatements : statements read stops rounds body p = .ok (body', p')) :
    (stops p.current.kind = true ∧ body' = body ∧ p' = p) ∨
      ∃ round others s p₁, rounds = round :: others ∧ read p = .ok (s, p₁) ∧
        statements read stops others (body.push s) p₁ = .ok (body', p') := by
  unfold statements at hstatements
  split at hstatements
  next hstops =>
    cases hstatements
    exact .inl ⟨hstops, rfl, rfl⟩
  next =>
    cases rounds with
    | nil => contradiction
    | cons round others =>
        cases hstmt : read p with
        | error diagnostics =>
            simp only [hstmt] at hstatements
            contradiction
        | ok result =>
            simp only [hstmt] at hstatements
            exact .inr ⟨round, others, result.1, result.2, rfl, rfl, hstatements⟩

/-- A block is its statements, read in a scope of their own, and the brace after them. -/
theorem block_cases {read : StmtReader} {p p' : Parser} {s : Stmt}
    (hblock : block read p = .ok (s, p')) :
    ∃ body p₁ p₂, statements read (fun kind => kind == .rightBrace || kind == .eof) p.rest #[]
        { p with scope := p.scope.enter } = .ok (body, p₁) ∧
      p₂ = p₁.expect .rightBrace "'\x7d' after block" ∧
      s = .block body.toList p₂.previous.pos ∧ p' = { p₂ with scope := p₂.scope.leave } := by
  unfold block at hblock
  dsimp only at hblock
  cases hbody : statements read (fun kind => kind == .rightBrace || kind == .eof) p.rest #[]
      { p with scope := p.scope.enter } with
  | error diagnostics =>
      rw [hbody] at hblock
      contradiction
  | ok result =>
      rw [hbody] at hblock
      cases hblock
      exact ⟨result.1, result.2, _, rfl, rfl, rfl, rfl⟩

/-- A declaration or a statement, and the end of the panic if reading is to recover. -/
theorem declarationOr_cases {recovery : Bool} {levels : Nat} {read : StmtReader} {p p' : Parser}
    {s : Stmt} (hdeclaration : declarationOr recovery levels read p = .ok (s, p')) :
    ∃ q, ((p.sees .kwDecl = true ∧ p.advance.declare levels = (s, q)) ∨ read p = .ok (s, q)) ∧
      p' = if recovery && q.panicking then q.recover else q := by
  unfold declarationOr at hdeclaration
  split at hdeclaration
  next hsees =>
    cases hdeclaration
    exact ⟨_, .inl ⟨hsees, rfl⟩, rfl⟩
  next =>
    cases hstmt : read p with
    | error diagnostics =>
        rw [hstmt] at hdeclaration
        contradiction
    | ok result =>
        rw [hstmt] at hdeclaration
        cases hdeclaration
        exact ⟨_, .inr rfl, rfl⟩

/-- A script is the statements up to the end of its tokens. -/
theorem ofTokens_cases {recovery : Bool} {tokens : List Token} {program : Program} {p : Parser}
    (hread : Program.ofTokens recovery tokens = .ok (program, p)) :
    ∃ body, statements (declaration recovery maxNesting) (· == .eof)
        (start tokens).advance.rest #[] (start tokens).advance = .ok (body, p) ∧
      program = ⟨body.toList, p.current.pos⟩ := by
  unfold Program.ofTokens at hread
  dsimp only at hread
  cases hbody : statements (declaration recovery maxNesting) (· == .eof)
      (start tokens).advance.rest #[] (start tokens).advance with
  | error diagnostics =>
      rw [hbody] at hread
      contradiction
  | ok result =>
      rw [hbody] at hread
      cases hread
      exact ⟨result.1, rfl, rfl⟩

theorem StmtReader.Keeps.statements {P : Parser → Prop} {read : StmtReader} (hread : read.Keeps P)
    {stops : TokenKind → Bool} (rounds : List Token) {body body' : Array Stmt} {p p' : Parser}
    (h : P p)
    (hstatements : Parser.statements read stops rounds body p = .ok (body', p')) : P p' := by
  induction rounds generalizing body p with
  | nil =>
      obtain ⟨_, _, rfl⟩ | ⟨_, _, _, _, hrounds, _⟩ := statements_cases hstatements
      · exact h
      · contradiction
  | cons _ rounds ih =>
      obtain ⟨_, _, rfl⟩ | ⟨_, _, s, p₁, hrounds, hstmt, hrest⟩ := statements_cases hstatements
      · exact h
      · obtain ⟨_, rfl⟩ := List.cons.inj hrounds
        exact ih (hread p s p₁ h hstmt) hrest

namespace Steady

variable {P : Parser → Prop} (hP : Steady P)
  (hscope : ∀ {p : Parser} (scope), P p → P { p with scope })

include hP hscope

theorem declareLocal {p : Parser} (name : String) (h : P p) : P (p.declareLocal name) := by
  have hreport : P (if p.scope.declares name then p.report (.alreadyDeclared name) else p) := by
    split
    · exact hP.report _ h
    · exact h
  unfold Parser.declareLocal
  dsimp only
  revert hreport
  generalize (if p.scope.declares name then p.report (.alreadyDeclared name) else p) = q
  intro hreport
  split
  · exact hscope _ hreport
  · exact hP.report _ hreport

theorem declare (levels : Nat) {p : Parser} (h : P p) : P (p.declare levels).2 := by
  unfold Parser.declare
  split
  · dsimp only
    have hname : P (if p.advance.scope.depth = 0 then
        p.advance.intern (.str p.advance.previous.lexeme)
        else p.advance.declareLocal p.advance.previous.lexeme) := by
      split
      · exact hP.intern _ (hP.advance h)
      · exact hP.declareLocal hscope _ (hP.advance h)
    revert hname
    generalize (if p.advance.scope.depth = 0 then p.advance.intern (.str p.advance.previous.lexeme)
      else p.advance.declareLocal p.advance.previous.lexeme) = q
    intro hname
    have hstop := hP.expect .semicolon "';' after variable declaration"
      (hP.initializer levels hname)
    split
    · exact hstop
    · exact hscope _ hstop
  · exact hP.reportNext _ h

end Steady

namespace Lasting

variable {P : Parser → Prop} (hP : Lasting P)

include hP

theorem declareLocal {p : Parser} (name : String) (h : P p) : P (p.declareLocal name) :=
  hP.toSteady.declareLocal hP.scope name h

theorem declare (levels : Nat) {p : Parser} (h : P p) : P (p.declare levels).2 :=
  hP.toSteady.declare hP.scope levels h

theorem block {read : StmtReader} (hread : read.Keeps P) : (Parser.block read).Keeps P := by
  intro p s p' h hblock
  obtain ⟨body, p₁, p₂, hbody, rfl, rfl, rfl⟩ := block_cases hblock
  exact hP.scope _ (hP.expect _ _ (hread.statements _ (hP.scope _ h) hbody))

section Recovery

-- Only with recovery does a panic end.
variable {recovery : Bool}
  (hcalm : recovery = true → ∀ {p : Parser}, P p → P { p with panicking := false })

include hcalm

theorem finish {p : Parser} (h : P p) : P (if recovery && p.panicking then p.recover else p) := by
  split
  next hpanic => exact hP.skipTo _ (hcalm (Bool.and_eq_true_iff.mp hpanic).1 h)
  next => exact h

theorem declarationOr_of_advance {levels : Nat} {read : StmtReader} {p p' : Parser} {s : Stmt}
    (h : P p.advance) (hread : ∀ s p', read p = .ok (s, p') → P p')
    (hdeclaration : Parser.declarationOr recovery levels read p = .ok (s, p')) : P p' := by
  obtain ⟨q, ⟨_, hdeclare⟩ | hstmt, rfl⟩ := declarationOr_cases hdeclaration
  · have hresult : (p.advance.declare levels).2 = q := congrArg Prod.snd hdeclare
    exact hP.finish hcalm (hresult ▸ hP.declare levels h)
  · exact hP.finish hcalm (hread _ _ hstmt)

theorem declarationOr (levels : Nat) {read : StmtReader} (hread : read.Keeps P) :
    (Parser.declarationOr recovery levels read).Keeps P := by
  intro p s p' h hdeclaration
  exact hP.declarationOr_of_advance hcalm (hP.advance h) (fun s p' => hread p s p' h) hdeclaration

theorem statement_of_advance {levels : Nat} (hread : (Parser.statement recovery levels).Keeps P)
    {p p' : Parser} {s : Stmt} (h : P p.advance)
    (hstatement : Parser.statement recovery (levels + 1) p = .ok (s, p')) : P p' := by
  rw [Parser.statement] at hstatement
  split at hstatement
  · exact hP.block (hP.declarationOr hcalm levels hread) _ _ _ h hstatement
  · have hresult : (p.simple (levels + 1)).2 = p' :=
      congrArg Prod.snd (Except.ok.inj hstatement)
    rw [← hresult]
    exact hP.simple_of_advance levels h

theorem statement (levels : Nat) : (Parser.statement recovery levels).Keeps P := by
  induction levels with
  | zero =>
      intro p s p' h hstatement
      rw [Parser.statement] at hstatement
      split at hstatement
      · cases hstatement
        exact hP.report _ (hP.advance h)
      · have hresult : (p.simple 0).2 = p' := congrArg Prod.snd (Except.ok.inj hstatement)
        rw [← hresult]
        exact hP.simple 0 h
  | succ levels ih =>
      intro p s p' h hstatement
      exact hP.statement_of_advance hcalm ih (hP.advance h) hstatement

theorem declaration (levels : Nat) : (Parser.declaration recovery levels).Keeps P :=
  hP.declarationOr hcalm levels (hP.statement hcalm levels)

/-- While a level is left, a declaration or statement starts with the token that comes next. -/
theorem declaration_of_advance {levels : Nat} {p p' : Parser} {s : Stmt} (h : P p.advance)
    (hdeclaration : Parser.declaration recovery (levels + 1) p = .ok (s, p')) : P p' :=
  hP.declarationOr_of_advance hcalm h
    (fun _ _ => hP.statement_of_advance hcalm (hP.statement hcalm levels) h) hdeclaration

end Recovery

end Lasting

namespace Invariant

variable {P : Parser → Prop} (hP : Invariant P)

include hP

theorem recover {p : Parser} (h : P p) : P p.recover :=
  hP.skipTo _ (hP.calm h)

theorem statement (recovery : Bool) (levels : Nat) : (Parser.statement recovery levels).Keeps P :=
  hP.toLasting.statement (fun _ => hP.calm) levels

theorem declaration (recovery : Bool) (levels : Nat) :
    (Parser.declaration recovery levels).Keeps P :=
  hP.toLasting.declaration (fun _ => hP.calm) levels

theorem declaration_of_advance {recovery : Bool} {levels : Nat} {p p' : Parser} {s : Stmt}
    (h : P p.advance) (hdeclaration : Parser.declaration recovery (levels + 1) p = .ok (s, p')) :
    P p' :=
  hP.toLasting.declaration_of_advance (fun _ => hP.calm) h hdeclaration

end Invariant

/-! ## Errors are not forgotten -/

theorem reportAt_diagnostics (p : Parser) (token : Token) (error : CompileError) :
    p.diagnostics <+: (p.reportAt token error).diagnostics := by
  unfold reportAt
  split
  · exact List.prefix_refl _
  · exact List.prefix_append _ _

@[simp] theorem panicking_reportAt (p : Parser) (token : Token) (error : CompileError) :
    (p.reportAt token error).panicking = true := by
  unfold reportAt
  split
  next hpanic => exact hpanic
  next => rfl

theorem panicking_fetch {p : Parser} (tokens : List Token) (hpanic : p.panicking = true) :
    (p.fetch tokens).panicking = true :=
  fetch_of_tokens (P := fun p => p.panicking = true)
    (fun token error _ => panicking_reportAt _ token error) (fun _ _ _ h => h) tokens hpanic

theorem panicking_stable : Stable fun p => p.panicking = true where
  reportAt token error _ := panicking_reportAt _ token error
  advance h := panicking_fetch _ h
  pool _ h := h

/-- A panic always has its reason among the diagnostics. -/
def Explained (p : Parser) : Prop := p.panicking = true → p.diagnostics ≠ []

theorem explained_invariant : Invariant Explained where
  toStable := by
    refine .of_tokens ?_ (fun _ _ _ h => h) (fun _ h => h)
    intro p token error h
    unfold reportAt
    split
    · exact h
    · simp [Explained]
  scope _ h := h
  calm _ := by simp [Explained]

theorem diagnostics_ne_nil_invariant : Invariant fun p => p.diagnostics ≠ [] where
  toStable := by
    refine .of_tokens ?_ (fun _ _ _ h => h) (fun _ h => h)
    intro p token error h hnil
    have hprefix := p.reportAt_diagnostics token error
    rw [hnil, List.prefix_nil] at hprefix
    exact h hprefix
  scope _ h := h
  calm h := h

end Scriptlet.Parser
