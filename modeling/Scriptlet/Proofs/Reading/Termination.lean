import Scriptlet.Compile
import Scriptlet.Proofs.Lexing
import Scriptlet.Proofs.Reading.ExpressionSoundness
import Scriptlet.Proofs.Reading.Statements

/-! # Reading makes progress and ends

The loops inside a statement take a token in every round and so end before the tokens do. The loops
over statements, that of the script and that of each block, rely on every statement to take a token.
While a level is left, every statement does, whatever is wrong with it. Inside as many open blocks
as there are levels, one that starts with an expression takes none, and a loop that has come there
goes on forever. A script with fewer opening braces than levels never gets there.
-/

namespace Scriptlet.Parser

/-! ## What is left of the tokens -/

/-- The tokens that have not been read are the end of `tokens`, and `eof` is the last of them. -/
def Within (tokens : List Token) (p : Parser) : Prop :=
  p.EndsInEof ∧ p.upcoming <:+ tokens

theorem Within.of_upcoming_eq {tokens : List Token} {p p' : Parser} (hp : Within tokens p)
    (hupcoming : p'.upcoming = p.upcoming) : Within tokens p' := by
  rwa [Within, EndsInEof, hupcoming]

@[simp] theorem current_reportAt (p : Parser) (token : Token) (error : CompileError) :
    (p.reportAt token error).current = p.current := by
  unfold reportAt
  split <;> rfl

@[simp] theorem rest_reportAt (p : Parser) (token : Token) (error : CompileError) :
    (p.reportAt token error).rest = p.rest := by
  unfold reportAt
  split <;> rfl

theorem upcoming_reportAt (p : Parser) (token : Token) (error : CompileError) :
    (p.reportAt token error).upcoming = p.upcoming := by
  simp [upcoming]

theorem upcoming_fetch (p : Parser) {tokens : List Token}
    (htokens : ∃ token ∈ tokens, token.kind ≠ .error) :
    (p.fetch tokens).upcoming = tokens.dropWhile (·.kind == .error) := by
  induction tokens generalizing p with
  | nil => simp at htokens
  | cons token rest ih =>
      rw [fetch]
      by_cases herror : token.kind = .error
      · rw [if_pos herror, List.dropWhile_cons_of_pos (by simp [herror])]
        apply ih
        simpa [herror] using htokens
      · rw [if_neg herror, List.dropWhile_cons_of_neg (by simp [herror])]
        rfl

theorem EndsInEof.of_suffix {p p' : Parser} (hends : p.EndsInEof)
    (hsuffix : p'.upcoming <:+ p.upcoming) : p'.EndsInEof := by
  obtain ⟨last, hlast, heof⟩ := hends
  obtain ⟨taken, htaken⟩ := hsuffix
  refine ⟨last, ?_, heof⟩
  rwa [← htaken, List.getLast?_append_of_ne_nil] at hlast
  simp [Parser.upcoming]

/-- Behind a token that is not the last one, there is one that can be read. -/
theorem EndsInEof.exists_readable {p : Parser} (hends : p.EndsInEof) (hrest : p.rest ≠ []) :
    ∃ token ∈ p.rest, token.kind ≠ .error := by
  obtain ⟨last, hlast, heof⟩ := hends
  rw [Parser.upcoming, List.getLast?_cons, Option.some.injEq,
    List.getLast?_eq_getLast_of_ne_nil hrest, Option.getD_some] at hlast
  exact ⟨last, hlast ▸ List.getLast_mem hrest, by simp [heof]⟩

/-- An advance takes the token that comes next, unless it is the last one. -/
theorem EndsInEof.within_advance {p : Parser} (hends : p.EndsInEof) (hrest : p.rest ≠ []) :
    Within p.rest p.advance := by
  have hsuffix : p.advance.upcoming <:+ p.rest := by
    rw [advance, upcoming_fetch _ (hends.exists_readable hrest)]
    exact List.dropWhile_suffix _
  exact ⟨hends.of_suffix (hsuffix.trans (List.suffix_cons _ _)), hsuffix⟩

theorem within_invariant (tokens : List Token) : Invariant (Within tokens) where
  reportAt token error hp := hp.of_upcoming_eq (upcoming_reportAt _ token error)
  advance {p} hp := by
    by_cases hrest : p.rest = []
    · apply hp.of_upcoming_eq
      rw [advance, hrest, fetch]
      simp [Parser.upcoming, hrest]
    · obtain ⟨hends, hsuffix⟩ := hp.1.within_advance hrest
      exact ⟨hends, hsuffix.trans ((List.suffix_cons _ _).trans hp.2)⟩
  pool _ hp := hp
  scope _ hp := hp
  calm hp := hp

/-- Whatever reading does, `eof` stays the last token. -/
theorem endsInEof_invariant : Invariant EndsInEof where
  reportAt token error hp := by rwa [EndsInEof, upcoming_reportAt]
  advance {p} hp := ((within_invariant p.upcoming).advance ⟨hp, List.suffix_refl _⟩).1
  pool _ hp := hp
  scope _ hp := hp
  calm hp := hp

theorem length_rest_lt {tokens : List Token} {p : Parser} (hp : Within tokens p) :
    p.rest.length < tokens.length := by
  have hlength := hp.2.length_le
  rwa [Parser.upcoming, List.length_cons] at hlength

/-! ## The loops inside a statement -/

/-- The loop over the binary operators behind `left`, for as many rounds as it takes: it stops at a
token that does not bind tightly enough, and otherwise goes on behind the right operand. -/
inductive Extends (read : ExprReader) (least : Precedence) : Expr → Parser → Expr × Parser → Prop
  | stop {left p} (hstops : ∀ op, p.current.kind.binaryOp? = some op → ¬least ≤ op.precedence) :
      Extends read least left p (left, p)
  | next {left p op right q result} (hop : p.current.kind.binaryOp? = some op)
      (hleast : least ≤ op.precedence) (hright : read op.precedence.next p.advance = (right, q))
      (hrest : Extends read least (.binary op left right) q result) :
      Extends read least left p result

/-- The loop over the tokens that are skipped after an error, for as many rounds as it takes. -/
inductive Skips : Parser → Parser → Prop
  | stop {p} (hstops : p.current.kind = .eof ∨ p.previous.kind = .semicolon ∨
      p.current.kind.startsStatement = true) : Skips p p
  | next {p q} (hcurrent : p.current.kind ≠ .eof) (hprevious : p.previous.kind ≠ .semicolon)
      (hstart : p.current.kind.startsStatement = false) (hrest : Skips p.advance q) : Skips p q

/-- Every round takes an operator, so the rounds do not run out before the loop stops. -/
theorem EndsInEof.extends_operators {p : Parser} (hends : p.EndsInEof) (levels : Nat)
    (least : Precedence) (left : Expr) {rounds : List Token}
    (hrounds : p.rest.length ≤ rounds.length) :
    Extends (expression levels) least left p
      (operators (expression levels) least rounds left p) := by
  induction rounds generalizing left p with
  | nil =>
      -- Only the last token is left, and `eof` is no operator.
      have heof := hends.kind_eq_eof (List.length_eq_zero_iff.mp (Nat.le_zero.mp hrounds))
      exact .stop (by simp [heof, TokenKind.binaryOp?])
  | cons round rounds ih =>
      rw [operators]
      split
      next hop => exact .stop (by simp [hop])
      next op hop =>
        split
        next hleast =>
          rcases hright : expression levels op.precedence.next p.advance with ⟨right, q⟩
          have hrest := hends.rest_ne_nil (kind_ne_eof_of_binaryOp? hop)
          have htaken : Within p.rest q := by
            have hkeeps := (within_invariant p.rest).expression levels op.precedence.next p.advance
              (hends.within_advance hrest)
            rwa [hright] at hkeeps
          have hshorter := length_rest_lt htaken
          rw [List.length_cons] at hrounds
          exact .next hop hleast hright (ih htaken.1 _ (by omega))
        next hleast =>
          refine .stop fun other hother => ?_
          rw [hop] at hother
          rwa [← Option.some.inj hother]

theorem EndsInEof.skips_skipTo {p : Parser} (hends : p.EndsInEof) {rounds : List Token}
    (hrounds : p.rest.length ≤ rounds.length) : Skips p (p.skipTo rounds) := by
  induction rounds generalizing p with
  | nil =>
      exact .stop (.inl (hends.kind_eq_eof (List.length_eq_zero_iff.mp (Nat.le_zero.mp hrounds))))
  | cons round rounds ih =>
      rw [skipTo]
      split
      next hstops => exact .stop (by simpa [sees, or_assoc] using hstops)
      next hgoes =>
        simp only [sees, Bool.or_eq_true, beq_iff_eq, not_or, Bool.not_eq_true] at hgoes
        obtain ⟨⟨hcurrent, hprevious⟩, hstart⟩ := hgoes
        have htaken := hends.within_advance (hends.rest_ne_nil hcurrent)
        have hshorter := length_rest_lt htaken
        rw [List.length_cons] at hrounds
        exact .next hcurrent hprevious hstart (ih htaken.1 (by omega))

/-! ## Statements without a level left -/

/-- Where no level is left, a statement takes no token if it would start with an expression, and if
reading, where it is to recover, may resume at once. -/
def Stalls (recovery : Bool) (p : Parser) : Prop :=
  p.current.kind ∉ [.kwDecl, .kwPrint, .leftBrace, .semicolon] ∧
    (recovery = true → p.previous.kind = .semicolon ∨ p.current.kind.startsStatement = true)

theorem Stalls.of_eq {recovery : Bool} {p p' : Parser} (hstalls : Stalls recovery p)
    (hupcoming : p'.upcoming = p.upcoming) (hprevious : p'.previous = p.previous) :
    Stalls recovery p' := by
  have hcurrent : p'.current = p.current := (List.cons.inj hupcoming).1
  rwa [Stalls, hcurrent, hprevious]

/-- In a block, the tokens at which a statement stalls can be listed. -/
theorem stalls_iff {recovery : Bool} {p : Parser} (hcurrent : p.current.kind ≠ .eof)
    (hbrace : p.current.kind ≠ .rightBrace) :
    Stalls recovery p ↔
      p.current.kind ∉ [.kwDecl, .kwPrint, .leftBrace, .semicolon, .rightBrace, .eof] ∧
        (recovery = true → p.previous.kind = .semicolon ∨
          p.current.kind ∈ [.kwIf, .kwFor, .kwWhile, .kwFn, .kwReturn]) := by
  unfold Stalls
  cases hkind : p.current.kind <;> simp_all [TokenKind.startsStatement]

/-- A bad statement that has been read, and the end of the panic if reading is to recover. -/
theorem declarationOr_eq (recovery : Bool) (levels : Nat) (read : StmtReader) (p : Parser) :
    declarationOr recovery levels read p =
      (if p.sees .kwDecl then .ok (p.advance.declare levels) else read p).map fun result =>
        (result.1, if recovery && result.2.panicking then result.2.recover else result.2) := by
  unfold declarationOr
  split
  · rfl
  · cases read p <;> rfl

section Levels

variable {recovery : Bool} {p : Parser}

/-- Tokens that have been taken stay so while reading recovers. -/
theorem within_finish {tokens : List Token} (hp : Within tokens p) :
    Within tokens (if recovery && p.panicking then p.recover else p) :=
  (within_invariant tokens).finish (fun _ => (within_invariant tokens).calm) hp

/-- To recover from a refused statement is to stay if reading may resume at once. -/
theorem recover_cases (hends : p.EndsInEof) (hcurrent : p.current.kind ≠ .eof) :
    if p.previous.kind = .semicolon ∨ p.current.kind.startsStatement = true then
      p.recover = { p with panicking := false }
    else Within p.rest p.recover := by
  obtain ⟨round, rounds, hrest⟩ := List.exists_cons_of_ne_nil (hends.rest_ne_nil hcurrent)
  have hrecover : p.recover =
      if p.sees .eof || p.previous.kind == .semicolon || p.current.kind.startsStatement then
        { p with panicking := false }
      else skipTo rounds { p with panicking := false }.advance := by
    rw [recover, hrest, skipTo]
    rfl
  have hsees : p.sees .eof = false := beq_eq_false_iff_ne.mpr hcurrent
  rw [hrecover, hsees, Bool.false_or]
  split
  next hresumes =>
    rw [if_pos]
    simpa using hresumes
  next hresumes =>
    rw [if_neg (by simpa using hresumes)]
    apply (within_invariant p.rest).skipTo
    exact EndsInEof.within_advance (p := { p with panicking := false }) hends
      (hends.rest_ne_nil hcurrent)

/-- An expression statement for which no level is left is refused, except for its semicolon. -/
theorem exprStmt_zero (hends : p.EndsInEof) (hcurrent : p.current.kind ≠ .eof) :
    if p.current.kind = .semicolon then Within p.rest (p.exprStmt 0).2
    else (p.exprStmt 0).2.upcoming = p.upcoming ∧ (p.exprStmt 0).2.previous = p.previous ∧
      (p.exprStmt 0).2.panicking = true := by
  have hstmt : (p.exprStmt 0).2 =
      (p.report (.tooDeeplyNested maxNesting)).expect .semicolon "';' after expression" := rfl
  rw [hstmt, expect, sees, report, current_reportAt]
  split
  next hsemicolon =>
    rw [if_pos (by simp [hsemicolon])]
    have hreport : (p.reportAt p.previous (.tooDeeplyNested maxNesting)).EndsInEof := by
      rwa [EndsInEof, upcoming_reportAt]
    have htaken := hreport.within_advance (by simpa using hends.rest_ne_nil hcurrent)
    rwa [rest_reportAt] at htaken
  next hsemicolon =>
    rw [if_neg (by simp [hsemicolon])]
    simp [reportNext, upcoming, previous_reportAt]

variable (recovery) in
theorem declaration_zero (hends : p.EndsInEof) (hcurrent : p.current.kind ≠ .eof) :
    ∃ s p', declaration recovery 0 p = .ok (s, p') ∧
      ((Stalls recovery p ∧ p'.upcoming = p.upcoming ∧ p'.previous = p.previous) ∨
        (¬Stalls recovery p ∧ Within p.rest p')) := by
  have htaken := hends.within_advance (hends.rest_ne_nil hcurrent)
  rw [declaration, declarationOr_eq]
  by_cases hdecl : p.current.kind = .kwDecl
  · rw [if_pos (by simp [sees, hdecl])]
    refine ⟨_, _, rfl, .inr ⟨by simp [Stalls, hdecl], within_finish ?_⟩⟩
    exact (within_invariant _).declare 0 htaken
  rw [if_neg (by simp [sees, hdecl]), statement]
  by_cases hbrace : p.current.kind = .leftBrace
  · rw [if_pos (by simp [sees, hbrace])]
    refine ⟨_, _, rfl, .inr ⟨by simp [Stalls, hbrace], within_finish ?_⟩⟩
    exact (within_invariant _).report _ htaken
  rw [if_neg (by simp [sees, hbrace]), simple]
  by_cases hprint : p.current.kind = .kwPrint
  · rw [if_pos (by simp [sees, hprint])]
    refine ⟨_, _, rfl, .inr ⟨by simp [Stalls, hprint], within_finish ?_⟩⟩
    exact (within_invariant _).print 0 htaken
  rw [if_neg (by simp [sees, hprint])]
  have hstmt := exprStmt_zero hends hcurrent
  split at hstmt
  next hsemicolon =>
    exact ⟨_, _, rfl, .inr ⟨by simp [Stalls, hsemicolon], within_finish hstmt⟩⟩
  next hsemicolon =>
    obtain ⟨hupcoming, hprevious, hpanic⟩ := hstmt
    refine ⟨_, _, rfl, ?_⟩
    simp only [hpanic, Bool.and_true]
    cases recovery with
    | false => exact .inl ⟨by simp [Stalls, *], hupcoming, hprevious⟩
    | true =>
        -- The refused statement has left the tokens, so recovery starts where it did.
        obtain ⟨hnext, hrest⟩ := List.cons.inj hupcoming
        have hends' : (p.exprStmt 0).2.EndsInEof := by rwa [EndsInEof, hupcoming]
        have hrecover := recover_cases hends' (by rwa [hnext])
        rw [hnext, hprevious, hrest] at hrecover
        split at hrecover
        next hresumes =>
          refine .inl ⟨⟨by simp [*], fun _ => hresumes⟩, ?_⟩
          rw [if_pos rfl, hrecover]
          exact ⟨rfl, rfl⟩
        next hresumes => exact .inr ⟨fun hstalls => hresumes (hstalls.2 rfl), hrecover⟩

end Levels

/-! ## Calls -/

/-- Whether a token ends the statements of a block. -/
def closesBlock (kind : TokenKind) : Bool := kind == .rightBrace || kind == .eof

/-- Inside the block whose brace comes next. -/
def opened (p : Parser) : Parser := { p.advance with scope := p.advance.scope.enter }

theorem statement_of_brace (recovery : Bool) (levels : Nat) {p : Parser}
    (hbrace : p.sees .leftBrace = true) :
    statement recovery (levels + 1) p =
      (statements (declaration recovery levels) closesBlock p.opened.rest #[] p.opened).map
        fun result =>
          let p' := result.2.expect .rightBrace "'\x7d' after block"
          (.block result.1.toList p'.previous.pos, { p' with scope := p'.scope.leave }) := by
  rw [statement, if_pos hbrace]
  change (statements (declaration recovery levels) closesBlock p.opened.rest #[] p.opened >>= _) = _
  cases statements (declaration recovery levels) closesBlock p.opened.rest #[] p.opened <;> rfl

/-- Reading a declaration or statement never returns if and only if the loop of its block never
ends. -/
theorem exists_declaration_of_brace_iff {recovery : Bool} {levels : Nat} {p : Parser}
    (hbrace : p.sees .leftBrace = true) :
    (∃ result, declaration recovery (levels + 1) p = .ok result) ↔
      ∃ result, statements (declaration recovery levels) closesBlock p.opened.rest #[] p.opened =
        .ok result := by
  have hdecl : ¬p.sees .kwDecl = true := by
    rw [sees, beq_iff_eq] at hbrace ⊢
    simp [hbrace]
  rw [declaration, declarationOr_eq, if_neg hdecl, statement_of_brace recovery levels hbrace]
  cases statements (declaration recovery levels) closesBlock p.opened.rest #[] p.opened with
  | error diagnostics => simp [Except.map]
  | ok result => simp [Except.map]

theorem exists_declaration_of_not_brace (recovery : Bool) (levels : Nat) {p : Parser}
    (hbrace : p.sees .leftBrace = false) :
    ∃ result, declaration recovery levels p = .ok result := by
  rw [declaration, declarationOr_eq, statement_simple recovery levels hbrace]
  split
  · exact ⟨_, rfl⟩
  · exact ⟨_, rfl⟩

/-- The loop over statements that is in state `p` ends: it comes to a token at which to stop, or it
goes on from where the next statement is read to. A statement that opens a block is read only if the
loop of that block ends. Nothing here bounds the number of statements. -/
inductive Finishes (recovery : Bool) : Nat → (TokenKind → Bool) → Parser → Prop
  | stop {levels stops p} (hstops : stops p.current.kind = true) : Finishes recovery levels stops p
  | next {levels stops p s p'} (hgoes : stops p.current.kind = false)
      (hblock : ∀ inner, levels = inner + 1 → p.sees .leftBrace = true →
        Finishes recovery inner closesBlock p.opened)
      (hread : declaration recovery levels p = .ok (s, p'))
      (hrest : Finishes recovery levels stops p') : Finishes recovery levels stops p

section Calls

variable {recovery : Bool} {levels : Nat} {stops : TokenKind → Bool} {p p' : Parser} {s : Stmt}

/-- Reading a declaration or statement takes the token that comes next, or stalls. -/
theorem declaration_takes (hends : p.EndsInEof) (hcurrent : p.current.kind ≠ .eof)
    (hread : declaration recovery levels p = .ok (s, p')) :
    Within p.rest p' ∨
      (levels = 0 ∧ Stalls recovery p ∧ p'.upcoming = p.upcoming ∧ p'.previous = p.previous) := by
  cases levels with
  | zero =>
      obtain ⟨s₁, p₁, hread₁, hcases⟩ := declaration_zero recovery hends hcurrent
      rw [hread, Except.ok.injEq, Prod.mk.injEq] at hread₁
      obtain ⟨_, rfl⟩ := hread₁
      rcases hcases with hstalls | ⟨_, htaken⟩
      · exact .inr ⟨rfl, hstalls⟩
      · exact .inl htaken
  | succ levels =>
      have htaken := hends.within_advance (hends.rest_ne_nil hcurrent)
      exact .inl ((within_invariant p.rest).declaration_of_advance htaken hread)

/-- A statement that takes no token leaves all as it was, so every later one takes none either. -/
theorem Stalls.not_finishes (hstalls : Stalls recovery p) (hends : p.EndsInEof)
    (hcurrent : p.current.kind ≠ .eof) (hgoes : stops p.current.kind = false) :
    ¬Finishes recovery 0 stops p := by
  intro hfinishes
  generalize hlevels : 0 = levels at hfinishes
  induction hfinishes with
  | stop hstops => simp [hgoes] at hstops
  | next _ _ hread _ _ ih =>
      subst hlevels
      obtain ⟨s₁, p₁, hread₁, hcases⟩ := declaration_zero recovery hends hcurrent
      rw [hread, Except.ok.injEq, Prod.mk.injEq] at hread₁
      obtain ⟨_, rfl⟩ := hread₁
      rcases hcases with ⟨_, hupcoming, hprevious⟩ | ⟨hnot, _⟩
      · have hnext := (List.cons.inj hupcoming).1
        apply ih (hstalls.of_eq hupcoming hprevious)
        · rwa [EndsInEof, hupcoming]
        · rwa [hnext]
        · rwa [hnext]
        · rfl
      · exact hnot hstalls

/-- A loop that ends does so within as many rounds as tokens follow. -/
theorem Finishes.exists_statements (hfinishes : Finishes recovery levels stops p)
    (hstops : stops .eof = true) (hends : p.EndsInEof) {rounds : List Token} (body : Array Stmt)
    (hrounds : p.rest.length ≤ rounds.length) :
    ∃ result, statements (declaration recovery levels) stops rounds body p = .ok result := by
  induction hfinishes generalizing rounds body with
  | stop hstop => exact ⟨_, statements_stop _ rounds body hstop⟩
  | @next levels stops p s p' hgoes _ hread hrest _ ih =>
      have hcurrent : p.current.kind ≠ .eof := by
        intro heof
        simp [heof, hstops] at hgoes
      rcases declaration_takes hends hcurrent hread with htaken | ⟨rfl, hstalls, hsame⟩
      · have hshorter := length_rest_lt htaken
        obtain ⟨round, rounds, rfl⟩ := List.exists_cons_of_length_pos (Nat.zero_lt_of_lt
          (Nat.lt_of_lt_of_le hshorter hrounds))
        rw [statements_go round rounds body hgoes hread]
        apply ih hstops htaken.1
        rw [List.length_cons] at hrounds
        omega
      · obtain ⟨hupcoming, hprevious⟩ := hsame
        have hnext := (List.cons.inj hupcoming).1
        have hgoes' : stops p'.current.kind = false := by rwa [hnext]
        have hforever := (hstalls.of_eq hupcoming hprevious).not_finishes
          (by rwa [EndsInEof, hupcoming]) (by rwa [hnext]) hgoes'
        exact absurd hrest hforever

theorem finishes_of_exists_block
    (hblock : ∀ inner, levels = inner + 1 → ∀ {q : Parser}, q.sees .leftBrace = true →
      (∃ result, declaration recovery levels q = .ok result) →
      Finishes recovery inner closesBlock q.opened)
    {rounds : List Token} {body : Array Stmt} {result : Array Stmt × Parser}
    (hstatements : statements (declaration recovery levels) stops rounds body p = .ok result) :
    Finishes recovery levels stops p := by
  induction rounds generalizing body p with
  | nil =>
      rcases statements_cases hstatements with ⟨hstop, _⟩ | ⟨_, _, _, _, hrounds, _⟩
      · exact .stop hstop
      · contradiction
  | cons _ rounds ih =>
      by_cases hstop : stops p.current.kind = true
      · exact .stop hstop
      rcases statements_cases hstatements with ⟨hstop', _⟩ | ⟨_, _, s, p₁, hrounds, hread, hrest⟩
      · exact absurd hstop' hstop
      · obtain ⟨_, rfl⟩ := List.cons.inj hrounds
        refine .next (by simpa using hstop) ?_ hread (ih hrest)
        intro inner hinner hbrace
        exact hblock inner hinner hbrace ⟨_, hread⟩

theorem finishes_of_statements {rounds : List Token} {body : Array Stmt}
    {result : Array Stmt × Parser}
    (hstatements : statements (declaration recovery levels) stops rounds body p = .ok result) :
    Finishes recovery levels stops p := by
  induction levels generalizing stops rounds body p result with
  | zero => exact finishes_of_exists_block (by simp) hstatements
  | succ levels ih =>
      apply finishes_of_exists_block ?_ hstatements
      rintro inner hinner q hbrace hread
      obtain rfl : levels = inner := Nat.succ.inj hinner
      obtain ⟨_, hinside⟩ := (exists_declaration_of_brace_iff hbrace).mp hread
      exact ih hinside

/-- A loop that never ends uses up any number of rounds, and only such a loop does. -/
theorem finishes_iff (hstops : stops .eof = true) (hends : p.EndsInEof) (body : Array Stmt) :
    Finishes recovery levels stops p ↔
      ∃ result, statements (declaration recovery levels) stops p.rest body p = .ok result := by
  constructor
  · intro hfinishes
    exact hfinishes.exists_statements hstops hends body (Nat.le_refl _)
  · rintro ⟨result, hstatements⟩
    exact finishes_of_statements hstatements

/-! ## Few braces -/

/-- How many blocks a script can open at most. -/
def braces (tokens : List Token) : Nat := tokens.countP (·.kind == .leftBrace)

theorem braces_le {tokens others : List Token} (hsuffix : tokens <:+ others) :
    braces tokens ≤ braces others :=
  hsuffix.sublist.countP_le

theorem EndsInEof.within_opened (hends : p.EndsInEof) (hbrace : p.sees .leftBrace = true) :
    Within p.rest p.opened := by
  have hcurrent : p.current.kind = .leftBrace := eq_of_beq hbrace
  exact (within_invariant _).scope _
    (hends.within_advance (hends.rest_ne_nil (by simp [hcurrent])))

/-- With fewer braces to come than levels left, the loop ends. -/
theorem finishes_of_braces_lt (hstops : stops .eof = true) (hends : p.EndsInEof)
    (hbraces : braces p.upcoming < levels) : Finishes recovery levels stops p := by
  induction levels generalizing stops p with
  | zero => contradiction
  | succ levels ih =>
      -- In one loop, every statement leaves fewer tokens for the next.
      induction hlength : p.rest.length using Nat.strong_induction_on generalizing p with
      | _ length ihRest =>
          by_cases hstop : stops p.current.kind = true
          · exact .stop hstop
          have hcurrent : p.current.kind ≠ .eof := by
            intro heof
            rw [heof] at hstop
            exact hstop hstops
          have hblock : p.sees .leftBrace = true →
              Finishes recovery levels closesBlock p.opened := by
            intro hbrace
            have hopened := hends.within_opened hbrace
            apply ih rfl hopened.1
            have hfewer := braces_le hopened.2
            have hcount : braces p.upcoming = braces p.rest + 1 := List.countP_cons_of_pos hbrace
            omega
          obtain ⟨⟨s, p'⟩, hread⟩ : ∃ result,
              declaration recovery (levels + 1) p = .ok result := by
            by_cases hbrace : p.sees .leftBrace = true
            · apply (exists_declaration_of_brace_iff hbrace).mpr
              exact (hblock hbrace).exists_statements rfl (hends.within_opened hbrace).1 _
                (Nat.le_refl _)
            · exact exists_declaration_of_not_brace _ _ (by simpa using hbrace)
          have htaken : Within p.rest p' := (within_invariant p.rest).declaration_of_advance
            (hends.within_advance (hends.rest_ne_nil hcurrent)) hread
          refine .next (by simpa using hstop) ?_ hread ?_
          · rintro inner hinner hbrace
            obtain rfl := Nat.succ.inj hinner
            exact hblock hbrace
          · apply ihRest p'.rest.length (hlength ▸ length_rest_lt htaken) htaken.1 ?_ rfl
            have hfewer := braces_le (htaken.2.trans (List.suffix_cons p.current p.rest))
            exact Nat.lt_of_le_of_lt hfewer hbraces

end Calls

/-! ## The states between statements -/

/-- Reading a script comes to state `p` before or after a statement, with so many levels left, in a
loop that ends where `stops` says. -/
inductive Visits (recovery : Bool) (tokens : List Token) : Nat → (TokenKind → Bool) → Parser → Prop
  | start : Visits recovery tokens maxNesting (· == .eof) (start tokens).advance
  | next {levels stops p s p'} (hvisits : Visits recovery tokens levels stops p)
      (hgoes : stops p.current.kind = false)
      (hread : declaration recovery levels p = .ok (s, p')) :
      Visits recovery tokens levels stops p'
  | enter {levels stops p} (hvisits : Visits recovery tokens (levels + 1) stops p)
      (hgoes : stops p.current.kind = false) (hbrace : p.sees .leftBrace = true) :
      Visits recovery tokens levels closesBlock p.opened

/-- Reading a declaration or statement takes the token that comes next: when it returns, only tokens
after that one are left. If it never returns, it is in a block whose brace was that token. -/
def TakesToken (recovery : Bool) (levels : Nat) (p : Parser) : Prop :=
  match declaration recovery levels p with
  | .ok (_, p') => p'.upcoming <:+ p.rest
  | .error _ => p.current.kind = .leftBrace ∧ p.opened.upcoming <:+ p.rest

section Visits

variable {recovery : Bool} {tokens : List Token} {levels : Nat} {stops : TokenKind → Bool}
  {p : Parser}

theorem endsInEof_start {lexer : Lexer} (hscans : lexer.Scans tokens) :
    (start tokens).EndsInEof := by
  obtain ⟨before, last, rfl, hlast, _⟩ := hscans.exists_append
  exact ⟨last, List.getLast?_concat (l := Token.placeholder :: before), hlast⟩

theorem endsInEof_start_advance {lexer : Lexer} (hscans : lexer.Scans tokens) :
    (start tokens).advance.EndsInEof :=
  ((endsInEof_start hscans).within_advance hscans.ne_nil).1

theorem Visits.endsInEof {lexer : Lexer} (hscans : lexer.Scans tokens)
    (hvisits : Visits recovery tokens levels stops p) : p.EndsInEof := by
  induction hvisits with
  | start => exact endsInEof_start_advance hscans
  | @next levels stops p s p' _ _ hread ih =>
      have hkeeps := (within_invariant p.upcoming).declaration recovery levels p s p'
      exact (hkeeps ⟨ih, List.suffix_refl _⟩ hread).1
  | enter _ _ hbrace ih => exact (ih.within_opened hbrace).1

/-- Only the loop of the script itself has all levels left. -/
theorem Visits.stops_eq (hvisits : Visits recovery tokens levels stops p) :
    levels ≤ maxNesting ∧ stops = if levels = maxNesting then (· == .eof) else closesBlock := by
  induction hvisits with
  | start => exact ⟨Nat.le_refl _, rfl⟩
  | next _ _ _ ih => exact ih
  | enter _ _ _ ih => exact ⟨Nat.le_of_succ_le ih.1, by rw [if_neg (Nat.ne_of_lt ih.1)]⟩

theorem Visits.current_ne_eof (hvisits : Visits recovery tokens levels stops p)
    (hgoes : stops p.current.kind = false) : p.current.kind ≠ .eof := by
  intro heof
  rw [hvisits.stops_eq.2, heof] at hgoes
  split at hgoes <;> contradiction

theorem takesToken_of_level (hends : p.EndsInEof) (hcurrent : p.current.kind ≠ .eof) :
    TakesToken recovery (levels + 1) p := by
  unfold TakesToken
  cases hread : declaration recovery (levels + 1) p with
  | ok result =>
      have htaken := hends.within_advance (hends.rest_ne_nil hcurrent)
      exact ((within_invariant p.rest).declaration_of_advance htaken hread).2
  | error diagnostics =>
      have hbrace : p.sees .leftBrace = true := by
        by_contra hbrace
        obtain ⟨_, hresult⟩ := exists_declaration_of_not_brace recovery (levels + 1)
          (Bool.eq_false_of_not_eq_true hbrace)
        simp [hread] at hresult
      exact ⟨eq_of_beq hbrace, (hends.within_opened hbrace).2⟩

end Visits

end Parser

/-- Compiling a script ends, with code or with diagnostics. -/
def Terminates (recovery : Bool) (source : String) : Prop :=
  Parser.Finishes recovery Parser.maxNesting (· == .eof)
    (Parser.start (Token.ofSource source).toList).advance

theorem terminates_iff_ended (recovery : Bool) (source : String) :
    Terminates recovery source ↔
      ∀ rejection, compile recovery source = .error rejection → rejection.ended = true := by
  have hends := Parser.endsInEof_start_advance (Token.scans_ofSource source)
  rw [Terminates, Parser.finishes_iff rfl hends #[], compile, Program.ofTokens]
  dsimp only
  cases Parser.statements (Parser.declaration recovery Parser.maxNesting) (· == .eof)
      (Parser.start (Token.ofSource source).toList).advance.rest #[]
      (Parser.start (Token.ofSource source).toList).advance with
  | error diagnostics => simp [bind, Except.bind]
  | ok result =>
      simp only [Except.ok.injEq, exists_eq', bind, Except.bind, pure, Except.pure, true_iff]
      intro rejection hrejection
      split at hrejection
      · contradiction
      · obtain rfl := Except.error.inj hrejection
        rfl

/-- Compilation makes progress and ends. It gives an answer exactly if its loops over statements
end, and they end if the script has at most 255 opening braces. The loops inside a statement, over
the operators of an expression and over the tokens that are skipped after an error, end wherever
`eof` is the last token, which it is at the start and stays whatever reading does. Wherever reading
comes to a statement, it takes a token as long as fewer than 256 levels are open; with 256 open, in
a block, it takes none exactly if the next token neither opens a declaration, print statement or
block nor is a semicolon and, with recovery, if in addition the last token was a semicolon or the
next one is a reserved word at which reading resumes. -/
theorem compile_progress (recovery : Bool) (source : String) :
    (Terminates recovery source ↔
        ∀ rejection, compile recovery source = .error rejection → rejection.ended = true) ∧
      ((Token.ofSource source).toList.countP (·.kind == .leftBrace) ≤ 255 →
        Terminates recovery source) ∧
      ((Parser.start (Token.ofSource source).toList).EndsInEof ∧
        Parser.Invariant Parser.EndsInEof) ∧
      (∀ p : Parser, p.EndsInEof →
        (∀ levels least left, Parser.Extends (Parser.expression levels) least left p
          (Parser.operators (Parser.expression levels) least p.rest left p)) ∧
        Parser.Skips p (p.skipTo p.rest)) ∧
      ∀ nesting levels stops p, nesting + levels = Parser.maxNesting →
        Parser.Visits recovery (Token.ofSource source).toList levels stops p →
        stops p.current.kind = false →
        (nesting < 256 → Parser.TakesToken recovery levels p) ∧
        (nesting = 256 → ∃ s p', Parser.declaration recovery levels p = .ok (s, p') ∧
          (p'.upcoming = p.upcoming ↔
            p.current.kind ∉ [.kwDecl, .kwPrint, .leftBrace, .semicolon, .rightBrace, .eof] ∧
              (recovery = true → p.previous.kind = .semicolon ∨
                p.current.kind ∈ [.kwIf, .kwFor, .kwWhile, .kwFn, .kwReturn]))) := by
  have hscans := Token.scans_ofSource source
  refine ⟨terminates_iff_ended recovery source, ?_,
    ⟨Parser.endsInEof_start hscans, Parser.endsInEof_invariant⟩, fun p hends => ⟨?_, ?_⟩, ?_⟩
  · intro hbraces
    have hstart := (Parser.endsInEof_start hscans).within_advance hscans.ne_nil
    apply Parser.finishes_of_braces_lt rfl hstart.1
    exact Nat.lt_succ_of_le ((Parser.braces_le hstart.2).trans hbraces)
  · exact fun levels least left => hends.extends_operators levels least left (Nat.le_refl _)
  · exact hends.skips_skipTo (Nat.le_refl _)
  · intro nesting levels stops p hlevels hvisits hgoes
    have hends := hvisits.endsInEof hscans
    have hcurrent := hvisits.current_ne_eof hgoes
    constructor
    · intro hnesting
      obtain ⟨left, rfl⟩ : ∃ left, levels = left + 1 :=
        Nat.exists_eq_add_of_le' (by rw [Parser.maxNesting] at hlevels; omega)
      exact Parser.takesToken_of_level hends hcurrent
    · intro hnesting
      obtain rfl : levels = 0 := by rw [Parser.maxNesting] at hlevels; omega
      obtain ⟨s, p', hread, hcases⟩ := Parser.declaration_zero recovery hends hcurrent
      refine ⟨s, p', hread, ?_⟩
      have hbrace : p.current.kind ≠ .rightBrace := by
        rw [hvisits.stops_eq.2] at hgoes
        intro hbrace
        rw [hbrace] at hgoes
        contradiction
      rw [← Parser.stalls_iff hcurrent hbrace]
      rcases hcases with ⟨hstall, hsame, _⟩ | ⟨hnot, htaken⟩
      · exact iff_of_true hsame hstall
      · refine iff_of_false ?_ hnot
        intro hsame
        have hlength := htaken.2.length_le
        rw [hsame, Parser.upcoming, List.length_cons] at hlength
        omega

/-- An expression inside 256 open blocks. -/
def Program.deepScript : String :=
  String.ofList (List.replicate 256 '\x7b' ++ ['1', ';'])

theorem compile_progress_deep :
    Terminates true "\x7b 1 + ; \x7b decl ) \x7d" ∧ ¬Terminates false Program.deepScript := by
  constructor
  · apply (compile_progress true _).2.1
    decide +kernel
  · rw [(compile_progress false _).1]
    intro hended
    have hcompile : compile false Program.deepScript = .error
        ⟨[⟨.tooDeeplyNested 256, ⟨1, 256⟩, some "\x7b"⟩], false⟩ := by
      decide +kernel
    exact absurd (hended _ hcompile) (by simp)

end Scriptlet
