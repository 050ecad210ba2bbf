import Scriptlet.Proofs.Reading.Expressions

/-! # Reading statements

Every sequence of statements that the grammar derives is read as it stands, without an error, if it
is not nested too deeply, keeps the scoping rules and finds room for its variables and constants.
-/

namespace Scriptlet.Parser

/-! ## Parts of statements -/

theorem expression_complete {tokens : List Token} {e : Expr} (he : Expr.Derives .assign tokens e)
    {levels : Nat} {p : Parser} {next : Token} {rest : List Token} (hlevels : e.nesting < levels)
    (husable : Usable p.scope e) (hupcoming : p.upcoming = tokens ++ next :: rest)
    (hnext : next.kind = .semicolon ∨ next.kind = .rightParen) :
    ∃ p', expression levels .assign p = (e, p') ∧
      Reads p tokens (e.constants p.scope.names) p.scope p' := by
  have hreachable := reachable_of_derives he
  rcases hnext with hkind | hkind
  · exact hreachable.exists_expression_eq hlevels husable hupcoming (by simp [hkind])
      (stops_assign (by rw [hkind]; decide) (by simp [hkind]))
  · exact hreachable.exists_expression_eq hlevels husable hupcoming (by simp [hkind])
      (stops_assign (by rw [hkind]; decide) (by simp [hkind]))

theorem initializer_complete {tokens : List Token} {initial : Option Expr}
    (hinitial : Expr.DerivesInitial tokens initial) {levels : Nat} {p : Parser} {stop : Token}
    {rest : List Token} (hlevels : Expr.levels initial ≤ levels)
    (husable : ∀ name ∈ Expr.namesOptional initial, p.scope.resolve name ≠ .uninitialized)
    (hupcoming : p.upcoming = tokens ++ stop :: rest) (hstop : stop.kind = .semicolon) :
    ∃ p', p.initializer levels = (initial, p') ∧
      Reads p tokens (Expr.constantsOptional p.scope.names initial) p.scope p' := by
  cases initial with
  | none =>
      obtain rfl : tokens = [] := hinitial
      have hcurrent : p.current = stop := (List.cons.inj hupcoming).1
      refine ⟨p, ?_, .refl p⟩
      simp [initializer, sees, hcurrent, hstop]
  | some e =>
      obtain ⟨equal, value, rfl, hequal, he⟩ := hinitial
      have hcurrent : p.current = equal := (List.cons.inj hupcoming).1
      have hsign := reads_advance hupcoming (readable_of_derives he _)
      obtain ⟨p', hread, hreads⟩ := expression_complete he (p := p.advance) hlevels
        (hsign.scope ▸ husable) (hsign.upcoming_eq hupcoming) (.inl hstop)
      refine ⟨p', ?_, ?_⟩
      · simp [initializer, sees, hcurrent, hequal, hread]
      · simpa [hsign.scope, Expr.constantsOptional] using hsign.trans hreads

/-- An initial value is read together with the semicolon that ends the declaration. -/
theorem initializer_stop_complete {tokens : List Token} {initial : Option Expr}
    (hinitial : Expr.DerivesInitial tokens initial) {levels : Nat} {p : Parser} {stop : Token}
    {rest : List Token} (hlevels : Expr.levels initial ≤ levels)
    (husable : ∀ name ∈ Expr.namesOptional initial, p.scope.resolve name ≠ .uninitialized)
    (hupcoming : p.upcoming = tokens ++ stop :: rest) (hstop : stop.kind = .semicolon)
    (hrest : Readable rest) :
    ∃ p', p.initializer levels = (initial, p') ∧
      (p'.expect .semicolon "';' after variable declaration").previous = stop ∧
      Reads p (tokens ++ [stop]) (Expr.constantsOptional p.scope.names initial) p.scope
        (p'.expect .semicolon "';' after variable declaration") := by
  obtain ⟨p', hread, hvalue⟩ := initializer_complete hinitial hlevels husable hupcoming hstop
  have hend := reads_expect "';' after variable declaration" (hvalue.upcoming_eq hupcoming) hrest
  rw [hstop] at hend
  refine ⟨p', hread, hend.previous, ?_⟩
  simpa [hvalue.scope] using hvalue.trans hend

/-- The next token starts an expression, if one comes next. -/
theorem startsExpr_current {level : Expr.Level} {tokens : List Token} {e : Expr}
    (he : Expr.Derives level tokens e) {p : Parser} {rest : List Token}
    (hupcoming : p.upcoming = tokens ++ rest) : p.current.kind.startsExpr = true := by
  obtain ⟨first, others, rfl, hfirst⟩ := he.exists_head
  rw [(List.cons.inj hupcoming).1]
  exact hfirst

theorem sees_eq_false_of_startsExpr {p : Parser} {kind : TokenKind}
    (hcurrent : p.current.kind.startsExpr = true) (hkind : kind.startsExpr = false) :
    p.sees kind = false := by
  rw [sees, beq_eq_false_iff_ne]
  rintro rfl
  simp [hkind] at hcurrent

theorem argument_complete {tokens : List Token} {argument : Option Expr}
    (hargument : Expr.DerivesOptional tokens argument) {levels : Nat} {p : Parser} {close : Token}
    {rest : List Token} (hlevels : Expr.levels argument ≤ levels)
    (husable : ∀ name, p.scope.resolve name ≠ .uninitialized)
    (hupcoming : p.upcoming = tokens ++ close :: rest) (hclose : close.kind = .rightParen) :
    ∃ p', p.argument levels = (argument, p') ∧
      Reads p tokens (Expr.constantsOptional p.scope.names argument) p.scope p' := by
  cases argument with
  | none =>
      obtain rfl : tokens = [] := hargument
      have hcurrent : p.current = close := (List.cons.inj hupcoming).1
      refine ⟨p, ?_, .refl p⟩
      simp [Parser.argument, sees, hcurrent, hclose]
  | some e =>
      obtain ⟨p', hread, hreads⟩ := expression_complete hargument hlevels
        (fun name _ => husable name) hupcoming (.inr hclose)
      refine ⟨p', ?_, hreads⟩
      have hsees : p.sees .rightParen = false :=
        sees_eq_false_of_startsExpr (startsExpr_current hargument hupcoming) rfl
      simp [Parser.argument, hsees, hread]

/-- A variable that may be declared is entered without an error. -/
theorem reads_declareLocal {p : Parser} {innermost : List String} {outer : Blocks} {name : String}
    (hscope : p.scope = .ofBlocks (innermost :: outer)) (hname : name ∉ innermost)
    (hroom : (Blocks.names (innermost :: outer)).length < Scope.capacity) :
    Reads p [] [] ((Scope.ofBlocks (innermost :: outer)).push name) (p.declareLocal name) := by
  have hdeclares : ¬p.scope.declares name = true := by
    rw [hscope, Scope.declares_ofBlocks, decide_eq_true_iff]
    exact hname
  have hsize : p.scope.size < Scope.capacity := by
    rw [hscope, Scope.size_ofBlocks]
    exact hroom
  simp only [declareLocal, if_neg hdeclares, if_pos hsize]
  refine ⟨rfl, rfl, congrArg (Scope.push · name) hscope, ?_, fun hcalm => ⟨hcalm, rfl⟩⟩
  intro pool hpool
  exact ⟨Option.some.inj hpool, rfl, rfl⟩

/-- A change of the scope alone takes no tokens. -/
theorem reads_scope (p : Parser) (scope : Scope) : Reads p [] [] scope { p with scope } := by
  refine ⟨rfl, rfl, rfl, ?_, fun hcalm => ⟨hcalm, rfl⟩⟩
  intro pool hpool
  exact ⟨Option.some.inj hpool, rfl, rfl⟩

/-! ## Single statements -/

section Forms

variable {levels : Nat} {blocks : Blocks} {p : Parser}

theorem exprStmt_complete (hscope : p.scope = .ofBlocks blocks) {tokens : List Token} {e : Expr}
    {stop : Token} {rest : List Token} (he : Expr.Derives .assign tokens e)
    (hstop : stop.kind = .semicolon) (hlevels : e.nesting < levels)
    (hupcoming : p.upcoming = tokens ++ stop :: rest) (hrest : Readable rest) :
    ∃ p', p.exprStmt levels = (.expr e stop.pos, p') ∧
      Reads p (tokens ++ [stop]) (e.constants blocks.names) (.ofBlocks blocks) p' := by
  obtain ⟨p₁, hread, hreads⟩ := expression_complete he hlevels
    (fun name _ => hscope ▸ Scope.resolve_ofBlocks_ne blocks name) hupcoming (.inl hstop)
  have hend := reads_expect "';' after expression" (hreads.upcoming_eq hupcoming) hrest
  rw [hstop] at hend
  have hprevious : (p₁.expect .semicolon "';' after expression").previous = stop := hend.previous
  refine ⟨p₁.expect .semicolon "';' after expression", ?_, ?_⟩
  · simp [exprStmt, hread, hprevious]
  · simpa [hreads.scope, hscope] using hreads.trans hend

theorem print_complete (hscope : p.scope = .ofBlocks blocks) {opening close stop : Token}
    {tokens rest : List Token} {argument : Option Expr} (hopening : opening.kind = .leftParen)
    (hargument : Expr.DerivesOptional tokens argument) (hclose : close.kind = .rightParen)
    (hstop : stop.kind = .semicolon) (hlevels : Expr.levels argument ≤ levels)
    (hupcoming : p.upcoming = opening :: tokens ++ close :: stop :: rest) (hrest : Readable rest) :
    ∃ p', p.print levels = (.print argument opening.pos stop.pos, p') ∧
      Reads p (opening :: tokens ++ [close, stop])
        (Expr.constantsOptional blocks.names argument) (.ofBlocks blocks) p' := by
  have hreadable : Readable (tokens ++ close :: stop :: rest) := by
    cases argument with
    | none =>
        obtain rfl : tokens = [] := hargument
        exact readable_cons _ (by simp [hclose])
    | some e => exact readable_of_derives hargument _
  have htaken := reads_expect "'(' after 'print'" hupcoming hreadable
  rw [hopening] at htaken
  obtain ⟨p₂, heq, hvalue⟩ := argument_complete hargument hlevels
    (fun name => by rw [htaken.scope, hscope]; exact Scope.resolve_ofBlocks_ne blocks name)
    (htaken.upcoming_eq hupcoming) hclose
  have hbefore := htaken.trans hvalue
  have hparen := reads_expect "')' after value" (hbefore.upcoming_eq (by simpa using hupcoming))
    (readable_cons rest (by simp [hstop] : stop.kind ≠ .error))
  rw [hclose] at hparen
  have hvalueEnd := hbefore.trans hparen
  have hend := reads_expect "';' after value" (hvalueEnd.upcoming_eq (by simpa using hupcoming))
    hrest
  rw [hstop] at hend
  refine ⟨(p₂.expect .rightParen "')' after value").expect .semicolon "';' after value", ?_, ?_⟩
  · simp only [print, heq, htaken.previous, hend.previous]
    rfl
  · simpa [htaken.scope, hvalue.scope, hparen.scope, hscope] using hvalueEnd.trans hend

theorem declare_complete (hscope : p.scope = .ofBlocks blocks) {name stop : Token}
    {tokens rest : List Token} {initial : Option Expr} (hname : name.kind = .identifier)
    (hinitial : Expr.DerivesInitial tokens initial) (hstop : stop.kind = .semicolon)
    (hlevels : Expr.levels initial ≤ levels)
    (hscoped : (Stmt.decl name.lexeme name.pos initial stop.pos).WellScoped blocks)
    (hpeak : (Stmt.decl name.lexeme name.pos initial stop.pos).peak blocks ≤ Scope.capacity)
    (hupcoming : p.upcoming = name :: tokens ++ stop :: rest) (hrest : Readable rest) :
    ∃ p', p.declare levels = (.decl name.lexeme name.pos initial stop.pos, p') ∧
      Reads p (name :: tokens ++ [stop])
        ((Stmt.decl name.lexeme name.pos initial stop.pos).constants blocks)
        (.ofBlocks (blocks.declare name.lexeme)) p' := by
  have hreadable : Readable (tokens ++ stop :: rest) := by
    cases initial with
    | none =>
        obtain rfl : tokens = [] := hinitial
        exact readable_cons _ (by simp [hstop])
    | some e =>
        obtain ⟨equal, value, rfl, hequal, _⟩ := hinitial
        exact readable_cons _ (by simp [hequal])
  have htaken := reads_advance hupcoming hreadable
  have hprevious : p.advance.previous = name := htaken.previous
  have hsees : p.sees .identifier = true := by
    rw [sees, (List.cons.inj hupcoming).1, hname]
    rfl
  have hdepth : p.advance.scope.depth = blocks.length := by rw [htaken.scope, hscope]; rfl
  cases blocks with
  | nil =>
      have hglobal : p.advance.scope.depth = 0 := hdepth
      have hbefore := htaken.trans (reads_intern p.advance (.str name.lexeme))
      have hnames : (p.advance.intern (.str name.lexeme)).scope = .ofBlocks [] := by
        rw [hbefore.scope, htaken.scope, hscope]
      obtain ⟨p₂, heq, hlast, hvalue⟩ := initializer_stop_complete hinitial hlevels
        (fun other _ => hnames ▸ Scope.resolve_ofBlocks_ne [] other)
        (hbefore.upcoming_eq (by simpa using hupcoming)) hstop hrest
      refine ⟨p₂.expect .semicolon "';' after variable declaration", ?_, ?_⟩
      · simp only [declare, hsees, hprevious, hglobal, if_true, heq, hlast]
      · simpa [Stmt.constants, Blocks.declare, hnames] using hbefore.trans hvalue
  | cons innermost outer =>
      have hlocal : ¬p.advance.scope.depth = 0 := by simp [hdepth]
      obtain ⟨hfresh, hself⟩ := hscoped
      have hentered := reads_declareLocal (htaken.scope.trans hscope) hfresh hpeak
      have hbefore := htaken.trans hentered
      have husable : ∀ other ∈ Expr.namesOptional initial,
          (p.advance.declareLocal name.lexeme).scope.resolve other ≠ .uninitialized := by
        rw [hentered.scope]
        intro other hother huninitialized
        rw [(Scope.resolve_push_eq_iff _ _ _).mp huninitialized] at hother
        exact hself hother
      obtain ⟨p₂, heq, hlast, hvalue⟩ := initializer_stop_complete hinitial hlevels husable
        (hbefore.upcoming_eq (by simpa using hupcoming)) hstop hrest
      have hsettled : (p₂.expect .semicolon "';' after variable declaration").scope.settle =
          .ofBlocks ((name.lexeme :: innermost) :: outer) := by
        rw [hvalue.scope, hentered.scope, Scope.settle_push]
      have hresult := (hbefore.trans hvalue).trans
        (reads_scope _ (.ofBlocks ((name.lexeme :: innermost) :: outer)))
      refine ⟨{ p₂.expect .semicolon "';' after variable declaration" with
        scope := .ofBlocks ((name.lexeme :: innermost) :: outer) }, ?_, ?_⟩
      · simp only [declare, hsees, hprevious, hlocal, if_true, if_false, heq, hlast, hsettled]
      · simpa [Stmt.constants, Blocks.declare, Blocks.names, hentered.scope] using hresult

end Forms

/-! ## Sequences of statements -/

theorem declarationOr_decl (recovery : Bool) {levels : Nat} (read : StmtReader) {p p' : Parser}
    {s : Stmt} (hsees : p.sees .kwDecl = true) (hdeclare : p.advance.declare levels = (s, p'))
    (hcalm : p'.panicking = false) : declarationOr recovery levels read p = .ok (s, p') := by
  rw [declarationOr, if_pos hsees, hdeclare]
  simp [bind, Except.bind, pure, Except.pure, hcalm]

theorem declarationOr_read (recovery : Bool) (levels : Nat) {read : StmtReader} {p p' : Parser}
    {s : Stmt} (hsees : p.sees .kwDecl = false) (hread : read p = .ok (s, p'))
    (hcalm : p'.panicking = false) : declarationOr recovery levels read p = .ok (s, p') := by
  rw [declarationOr, if_neg (by simp [hsees]), hread]
  simp [bind, Except.bind, pure, Except.pure, hcalm]

theorem statement_simple (recovery : Bool) (levels : Nat) {p : Parser}
    (hsees : p.sees .leftBrace = false) : statement recovery levels p = .ok (p.simple levels) := by
  cases levels <;> simp [statement, hsees]

theorem statements_stop (read : StmtReader) {stops : TokenKind → Bool} (rounds : List Token)
    (body : Array Stmt) {p : Parser} (hstops : stops p.current.kind = true) :
    statements read stops rounds body p = .ok (body, p) := by
  unfold statements
  rw [if_pos hstops]

theorem statements_go {read : StmtReader} {stops : TokenKind → Bool} (round : Token)
    (rounds : List Token) (body : Array Stmt) {p p' : Parser} {s : Stmt}
    (hgo : stops p.current.kind = false) (hread : read p = .ok (s, p')) :
    statements read stops (round :: rounds) body p =
      statements read stops rounds (body.push s) p' := by
  rw [statements, if_neg (by simp [hgo])]
  simp [bind, Except.bind, hread]

/-- Statements start with a token that can be read, or what follows them does. -/
theorem readable_of_stmt_derives {tokens : List Token} {body : List Stmt}
    (hbody : Stmt.Derives tokens body) {next : Token} (hnext : next.kind ≠ .error)
    (rest : List Token) : Readable (tokens ++ next :: rest) := by
  cases hbody with
  | nil => exact readable_cons rest hnext
  | expr he _ _ =>
      rw [List.append_assoc]
      exact readable_of_derives he _
  | print hword _ _ _ _ _ => exact readable_cons _ (by simp [hword])
  | decl hword _ _ _ _ => exact readable_cons _ (by simp [hword])
  | block hopening _ _ _ => exact readable_cons _ (by simp [hopening])

/-- The kinds of token with which a statement starts. -/
def OpensStmt (kind : TokenKind) : Prop :=
  kind.startsExpr = true ∨ kind = .kwPrint ∨ kind = .kwDecl ∨ kind = .leftBrace

/-- In every scope that admits it, a statement is read as it stands. -/
def ReadsOne (recovery : Bool) (tokens : List Token) (s : Stmt) : Prop :=
  ∀ ⦃levels : Nat⦄ ⦃blocks : Blocks⦄ ⦃p : Parser⦄ ⦃pool : Pool⦄ ⦃rest : List Token⦄,
    s.nesting ≤ levels → s.WellScoped blocks → s.peak blocks ≤ Scope.capacity →
    p.scope = .ofBlocks blocks → p.panicking = false →
    p.pool.addAll (s.constants blocks) = some pool → p.upcoming = tokens ++ rest → Readable rest →
    ∃ p', declaration recovery levels p = .ok (s, p') ∧
      Reads p tokens (s.constants blocks) (.ofBlocks (blocks.after s)) p'

/-- In every scope that admits them, statements are read as they stand, up to a token that starts no
statement. -/
def ReadsAll (recovery : Bool) (tokens : List Token) (body : List Stmt) : Prop :=
  ∀ ⦃levels : Nat⦄ ⦃blocks : Blocks⦄ ⦃p : Parser⦄ ⦃pool : Pool⦄ ⦃stop : Token⦄ ⦃rest : List Token⦄
    (stops : TokenKind → Bool) (rounds : List Token) (acc : Array Stmt),
    Stmt.nestingAll body ≤ levels → Stmt.WellScopedAll blocks body →
    Stmt.peakAll blocks body ≤ Scope.capacity → p.scope = .ofBlocks blocks →
    p.panicking = false → p.pool.addAll (Stmt.constantsAll blocks body) = some pool →
    p.upcoming = tokens ++ stop :: rest → stop.kind ≠ .error →
    (∀ kind, OpensStmt kind → stops kind = false) → stops stop.kind = true →
    tokens.length ≤ rounds.length →
    ∃ result p', statements (declaration recovery levels) stops rounds acc p = .ok (result, p') ∧
      result.toList = acc.toList ++ body ∧
      Reads p tokens (Stmt.constantsAll blocks body) (.ofBlocks (blocks.afterAll body)) p'

/-- Statements that are not in a block go on to the end of the script. -/
theorem eq_eof_of_opensStmt {kind : TokenKind} (hkind : OpensStmt kind) :
    (kind == .eof) = false := by
  cases kind <;> simp_all [OpensStmt, TokenKind.startsExpr]

theorem rightBrace_or_eof_of_opensStmt {kind : TokenKind} (hkind : OpensStmt kind) :
    (kind == .rightBrace || kind == .eof) = false := by
  cases kind <;> simp_all [OpensStmt, TokenKind.startsExpr]

section Sequences

variable (recovery : Bool)

theorem ReadsAll.nil : ReadsAll recovery [] [] := by
  intro levels blocks p pool stop rest stops rounds acc _ _ _ hscope _ _ hupcoming _ _ hstop _
  have hcurrent : p.current = stop := (List.cons.inj hupcoming).1
  refine ⟨acc, p, statements_stop _ _ _ (hcurrent ▸ hstop), by simp, ?_⟩
  have hrefl := Reads.refl p
  rwa [hscope] at hrefl

variable {recovery} in
theorem ReadsAll.cons {first : Token} {tokens more : List Token} {s : Stmt} {body : List Stmt}
    (hfirst : OpensStmt first.kind) (hs : ReadsOne recovery (first :: tokens) s)
    (hmore : ∀ {next : Token} (_ : next.kind ≠ .error) (rest : List Token),
      Readable (more ++ next :: rest))
    (hbody : ReadsAll recovery more body) :
    ReadsAll recovery (first :: tokens ++ more) (s :: body) := by
  intro levels blocks p pool stop rest stops rounds acc hnesting hscoped hpeak hscope hcalm hfits
    hupcoming hnext honly hstop hrounds
  obtain ⟨hnestOne, hnestAll⟩ := Nat.max_le.mp hnesting
  obtain ⟨hpeakOne, hpeakAll⟩ := Nat.max_le.mp hpeak
  rw [List.append_assoc] at hupcoming
  rw [Stmt.constantsAll, Pool.addAll_append, Option.bind_eq_some_iff] at hfits
  obtain ⟨middle, hfitsOne, hfitsAll⟩ := hfits
  obtain ⟨p₁, hread, hreads⟩ := hs hnestOne hscoped.1 hpeakOne hscope hcalm hfitsOne hupcoming
    (hmore hnext rest)
  obtain ⟨hpool, hcalm₁, _⟩ := hreads.quiet middle hfitsOne
  obtain ⟨round, rounds, rfl⟩ : ∃ round others, rounds = round :: others :=
    List.exists_cons_of_length_pos (by simp at hrounds; omega)
  obtain ⟨result, p', hall, hresult, hreadsAll⟩ := hbody stops rounds
    (acc.push s) hnestAll hscoped.2 hpeakAll hreads.scope (hcalm₁.trans hcalm)
    (hpool ▸ hfitsAll) (hreads.upcoming_eq hupcoming) hnext honly hstop
    (by simp at hrounds; omega)
  have hgo : stops p.current.kind = false := by
    rw [(List.cons.inj hupcoming).1]
    exact honly _ hfirst
  refine ⟨result, p', ?_, by simp [hresult], hreads.trans hreadsAll⟩
  rw [statements_go round rounds acc hgo hread, hall]

theorem readsOne_expr {tokens : List Token} {stop : Token} {e : Expr}
    (he : Expr.Derives .assign tokens e) (hstop : stop.kind = .semicolon) :
    ReadsOne recovery (tokens ++ [stop]) (.expr e stop.pos) := by
  intro levels blocks p pool rest hnesting _ _ hscope hcalm hfits hupcoming hrest
  rw [List.append_assoc] at hupcoming
  have hstart := startsExpr_current he hupcoming
  obtain ⟨p', heq, hreads⟩ := exprStmt_complete hscope he hstop hnesting hupcoming hrest
  refine ⟨p', ?_, hreads⟩
  refine declarationOr_read recovery levels (sees_eq_false_of_startsExpr hstart rfl) ?_
    ((hreads.quiet pool hfits).2.1.trans hcalm)
  rw [statement_simple _ _ (sees_eq_false_of_startsExpr hstart rfl), simple,
    sees_eq_false_of_startsExpr hstart rfl, if_neg Bool.false_ne_true, heq]

theorem readsOne_print {word opening close stop : Token} {tokens : List Token}
    {argument : Option Expr} (hword : word.kind = .kwPrint) (hopening : opening.kind = .leftParen)
    (hargument : Expr.DerivesOptional tokens argument) (hclose : close.kind = .rightParen)
    (hstop : stop.kind = .semicolon) :
    ReadsOne recovery (word :: opening :: tokens ++ [close, stop])
      (.print argument opening.pos stop.pos) := by
  intro levels blocks p pool rest hnesting _ _ hscope hcalm hfits hupcoming hrest
  rw [List.append_assoc] at hupcoming
  have htaken := reads_advance hupcoming (readable_cons _ (by simp [hopening]))
  have hcurrent : p.current = word := (List.cons.inj hupcoming).1
  obtain ⟨p', heq, hprint⟩ := print_complete (p := p.advance) (htaken.scope.trans hscope) hopening
    hargument hclose hstop hnesting (htaken.upcoming_eq hupcoming) hrest
  have hreads := htaken.trans hprint
  refine ⟨p', ?_, hreads⟩
  refine declarationOr_read recovery levels (by simp [sees, hcurrent, hword]) ?_
    ((hreads.quiet pool hfits).2.1.trans hcalm)
  rw [statement_simple _ _ (by simp [sees, hcurrent, hword]), simple,
    if_pos (by simp [sees, hcurrent, hword]), heq]

theorem readsOne_decl {word name stop : Token} {tokens : List Token} {initial : Option Expr}
    (hword : word.kind = .kwDecl) (hname : name.kind = .identifier)
    (hinitial : Expr.DerivesInitial tokens initial) (hstop : stop.kind = .semicolon) :
    ReadsOne recovery (word :: name :: tokens ++ [stop])
      (.decl name.lexeme name.pos initial stop.pos) := by
  intro levels blocks p pool rest hnesting hscoped hpeak hscope hcalm hfits hupcoming hrest
  rw [List.append_assoc] at hupcoming
  have htaken := reads_advance hupcoming (readable_cons _ (by simp [hname]))
  have hcurrent : p.current = word := (List.cons.inj hupcoming).1
  obtain ⟨p', heq, hdeclare⟩ := declare_complete (p := p.advance) (htaken.scope.trans hscope) hname
    hinitial hstop hnesting hscoped hpeak (htaken.upcoming_eq hupcoming) hrest
  have hreads := htaken.trans hdeclare
  refine ⟨p', ?_, hreads⟩
  exact declarationOr_decl recovery _ (by simp [sees, hcurrent, hword]) heq
    ((hreads.quiet pool hfits).2.1.trans hcalm)

variable {recovery} in
theorem readsOne_block {opening close : Token} {tokens : List Token} {inner : List Stmt}
    (hopening : opening.kind = .leftBrace) (hreadable : ∀ {next : Token} (_ : next.kind ≠ .error)
      (rest : List Token), Readable (tokens ++ next :: rest))
    (hinner : ReadsAll recovery tokens inner) (hclose : close.kind = .rightBrace) :
    ReadsOne recovery (opening :: tokens ++ [close]) (.block inner close.pos) := by
  intro levels blocks p pool rest hnesting hscoped hpeak hscope hcalm hfits hupcoming hrest
  rw [List.append_assoc] at hupcoming
  obtain ⟨levels, rfl⟩ : ∃ inside, levels = inside + 1 :=
    Nat.exists_eq_add_of_le' (Nat.le_of_add_left_le hnesting)
  have hbrace : close.kind ≠ .error := by simp [hclose]
  have htaken := reads_advance hupcoming (hreadable hbrace rest)
  have hcurrent : p.current = opening := (List.cons.inj hupcoming).1
  have hentered := htaken.trans (reads_scope p.advance (.ofBlocks ([] :: blocks)))
  obtain ⟨hpool, hpanicking, _⟩ := hentered.quiet p.pool rfl
  have hupcoming' := hentered.upcoming_eq hupcoming
  have hrounds : tokens.length ≤ p.advance.rest.length := by
    have hlength := congrArg List.length hupcoming'
    simp [upcoming] at hlength
    omega
  obtain ⟨result, p₁, hall, hresult, hbody⟩ := hinner
    (fun kind => kind == .rightBrace || kind == .eof) p.advance.rest #[]
    (Nat.le_of_succ_le_succ hnesting) hscoped hpeak rfl (hpanicking.trans hcalm) (hpool ▸ hfits)
    hupcoming' hbrace (fun _ => rightBrace_or_eof_of_opensStmt) (by simp [hclose]) hrounds
  obtain ⟨names, hafter⟩ := Blocks.exists_afterAll_cons [] blocks inner
  have hfinal := reads_expect "'\x7d' after block" (hbody.upcoming_eq hupcoming') hrest
  rw [hclose] at hfinal
  have hleft : (p₁.expect .rightBrace "'\x7d' after block").scope.leave = .ofBlocks blocks := by
    rw [hfinal.scope, hbody.scope, hafter, Scope.leave_ofBlocks]
  have hreads := ((hentered.trans hbody).trans hfinal).trans (reads_scope _ (.ofBlocks blocks))
  refine ⟨{ p₁.expect .rightBrace "'\x7d' after block" with scope := .ofBlocks blocks }, ?_, ?_⟩
  · have henter : p.advance.scope.enter = .ofBlocks ([] :: blocks) := by
      rw [htaken.scope, hscope, Scope.enter_ofBlocks]
    have hblock : block (declaration recovery levels) p.advance =
        .ok (.block inner close.pos,
          { p₁.expect .rightBrace "'\x7d' after block" with scope := .ofBlocks blocks }) := by
      simp only [block, henter, hall, hleft, hfinal.previous, hresult, bind, Except.bind]
      rfl
    refine declarationOr_read recovery _ (by simp [sees, hcurrent, hopening]) ?_
      ((hreads.quiet pool (by simpa [Stmt.constants] using hfits)).2.1.trans hcalm)
    rw [statement, if_pos (by simp [sees, hcurrent, hopening])]
    exact hblock
  · simpa [Stmt.constants, Blocks.after] using hreads

end Sequences

/-- Statements that the grammar derives are read as they stand. -/
theorem readsAll_of_derives (recovery : Bool) {tokens : List Token} {body : List Stmt}
    (hbody : Stmt.Derives tokens body) : ReadsAll recovery tokens body := by
  induction hbody with
  | nil => exact .nil recovery
  | @expr tokens stop rest e body he hstop hrest ih =>
      obtain ⟨first, others, rfl, hfirst⟩ := he.exists_head
      have hone := readsOne_expr recovery he hstop
      have hall := ReadsAll.cons (.inl hfirst) hone (readable_of_stmt_derives hrest) ih
      simpa using hall
  | print hword hopening hargument hclose hstop hrest ih =>
      have hone := readsOne_print recovery hword hopening hargument hclose hstop
      have hall := ReadsAll.cons (.inr (.inl hword)) hone (readable_of_stmt_derives hrest) ih
      simpa using hall
  | decl hword hname hinitial hstop hrest ih =>
      have hone := readsOne_decl recovery hword hname hinitial hstop
      have hall := ReadsAll.cons (.inr (.inr (.inl hword))) hone (readable_of_stmt_derives hrest) ih
      simpa using hall
  | block hopening hinner hclose hrest ihInner ih =>
      have hone := readsOne_block hopening (readable_of_stmt_derives hinner) ihInner hclose
      have hall := ReadsAll.cons (.inr (.inr (.inr hopening))) hone
        (readable_of_stmt_derives hrest) ih
      simpa using hall

end Scriptlet.Parser
