import Scriptlet.Proofs.Reading.ExpressionSoundness
import Scriptlet.Proofs.Reading.Statements

/-! # What accepted statements were read from

If reading has left no diagnostics, then the tokens taken form the statements returned, and these
keep all the rules. A panic may end between statements, but only after it has been reported; so no
diagnostics at the end means no panic anywhere before.
-/

namespace Scriptlet.Parser

/-- From `p` to `p'` the parser takes `tokens`, which form `s`. -/
structure ReadsStmt (levels : Nat) (blocks : Blocks) (p : Parser) (tokens : List Token) (s : Stmt)
    (p' : Parser) : Prop
    extends Reads p tokens (s.constants blocks) (.ofBlocks (blocks.after s)) p' where
  derives : Stmt.Derives tokens [s]
  nesting : s.nesting ≤ levels
  wellScoped : s.WellScoped blocks
  peak : s.peak blocks ≤ Scope.capacity

/-- From `p` to `p'` the parser takes `tokens`, which form `body`. -/
structure ReadsBody (levels : Nat) (blocks : Blocks) (p : Parser) (tokens : List Token)
    (body : List Stmt) (p' : Parser) : Prop
    extends Reads p tokens (Stmt.constantsAll blocks body) (.ofBlocks (blocks.afterAll body)) p'
    where
  derives : Stmt.Derives tokens body
  nesting : Stmt.nestingAll body ≤ levels
  wellScoped : Stmt.WellScopedAll blocks body
  peak : Stmt.peakAll blocks body ≤ Scope.capacity

theorem scope_stable (scope : Scope) : Stable fun p => p.scope = scope := by
  refine .of_tokens ?_ (fun _ _ _ h => h) (fun _ h => h)
  intro p token error h
  unfold reportAt
  split
  · exact h
  · exact h

/-! ## Parts of statements -/

section Parts

variable {levels : Nat} {p p' : Parser}

/-- What may stand between parentheses is an expression or nothing. -/
theorem argument_sound {argument : Option Expr} (hends : p.EndsInEof)
    (hargument : p.argument levels = (argument, p')) (hcalm : p'.panicking = false) :
    ∃ tokens, Expr.DerivesOptional tokens argument ∧ Expr.levels argument ≤ levels ∧
      Reads p tokens (Expr.constantsOptional p.scope.names argument) p.scope p' := by
  unfold Parser.argument at hargument
  split at hargument
  · obtain ⟨rfl, rfl⟩ := Prod.mk.inj hargument
    exact ⟨[], rfl, Nat.zero_le _, .refl p⟩
  · cases hread : expression levels .assign p with
    | mk e p₁ =>
        rw [hread] at hargument
        obtain ⟨rfl, rfl⟩ := Prod.mk.inj hargument
        obtain ⟨tokens, htokens, _⟩ :=
          expression_sound levels .assign (by decide) hends hread hcalm
        exact ⟨tokens, htokens.derives, htokens.nesting, htokens.toReads⟩

theorem calm_of_initializer {initial : Option Expr} {what : String}
    (hread : p.initializer levels = (initial, p'))
    (hcalm : (p'.expect .semicolon what).panicking = false) : p.panicking = false := by
  have hkeeps := panicking_stable.initializer levels (p := p)
  rw [hread] at hkeeps
  exact calm_of_imp hkeeps (calm_of_imp (panicking_stable.expect _ _) hcalm)

/-- After the name of a variable stands an initial value or nothing, and then a semicolon. -/
theorem initializer_sound {initial : Option Expr} {what : String} (hends : p.EndsInEof)
    (hread : p.initializer levels = (initial, p'))
    (hcalm : (p'.expect .semicolon what).panicking = false) :
    ∃ tokens, Expr.DerivesInitial tokens initial ∧ p'.current.kind = .semicolon ∧
      Expr.levels initial ≤ levels ∧
      (∀ name ∈ Expr.namesOptional initial, p.scope.resolve name ≠ .uninitialized) ∧
      (p'.expect .semicolon what).previous = p'.current ∧
      Reads p (tokens ++ [p'.current]) (Expr.constantsOptional p.scope.names initial) p.scope
        (p'.expect .semicolon what) := by
  have hvalue : ∃ tokens, Expr.DerivesInitial tokens initial ∧ Expr.levels initial ≤ levels ∧
      (∀ name ∈ Expr.namesOptional initial, p.scope.resolve name ≠ .uninitialized) ∧
      Reads p tokens (Expr.constantsOptional p.scope.names initial) p.scope p' := by
    have hcalmValue := calm_of_imp (panicking_stable.expect _ _) hcalm
    unfold initializer at hread
    split at hread
    next hsees =>
      cases hexpr : expression levels .assign p.advance with
      | mk e p₁ =>
          rw [hexpr] at hread
          obtain ⟨rfl, rfl⟩ := Prod.mk.inj hread
          have hequal : p.current.kind = .equal := eq_of_beq hsees
          have hsign := reads_of_calm_advance hends (by simp [hequal])
            (calm_of_expression hexpr hcalmValue)
          obtain ⟨tokens, htokens, _⟩ := expression_sound levels .assign (by decide)
            (hends.of_reads hsign) hexpr hcalmValue
          refine ⟨p.current :: tokens, ⟨_, _, rfl, hequal, htokens.derives⟩, htokens.nesting,
            hsign.scope ▸ htokens.usable, ?_⟩
          simpa [Expr.constantsOptional, hsign.scope] using hsign.trans htokens.toReads
    next =>
      obtain ⟨rfl, rfl⟩ := Prod.mk.inj hread
      exact ⟨[], rfl, Nat.zero_le _, fun name hname => absurd hname List.not_mem_nil, .refl p⟩
  obtain ⟨tokens, hinitial, hlevels, husable, hreads⟩ := hvalue
  obtain ⟨hstop, hend⟩ := reads_of_calm_expect (hends.of_reads hreads) (by decide) hcalm
  refine ⟨tokens, hinitial, hstop, hlevels, husable, hend.previous, ?_⟩
  simpa [hreads.scope] using hreads.trans hend

/-- A variable that is entered without an error is a new one, and there is room for it. -/
theorem declareLocal_sound {innermost : List String} {outer : Blocks} {name : String}
    (hscope : p.scope = .ofBlocks (innermost :: outer))
    (hcalm : (p.declareLocal name).panicking = false) :
    name ∉ innermost ∧ (Blocks.names (innermost :: outer)).length < Scope.capacity := by
  have hdeclares : ¬p.scope.declares name = true := by
    intro hdeclares
    simp only [declareLocal, if_pos hdeclares] at hcalm
    split at hcalm <;> simp [report] at hcalm
  have hsize : p.scope.size < Scope.capacity := by
    by_contra hsize
    simp only [declareLocal, if_neg hdeclares, if_neg hsize] at hcalm
    simp [report] at hcalm
  rw [hscope, Scope.declares_ofBlocks, decide_eq_true_iff] at hdeclares
  rw [hscope, Scope.size_ofBlocks] at hsize
  exact ⟨hdeclares, hsize⟩

end Parts

/-! ## Single statements -/

section Forms

variable {levels : Nat} {blocks : Blocks} {p p' : Parser} {s : Stmt}

theorem exprStmt_sound (hscope : p.scope = .ofBlocks blocks)
    (hroom : blocks.names.length ≤ Scope.capacity) (hends : p.EndsInEof)
    (hstmt : p.exprStmt levels = (s, p')) (hcalm : p'.panicking = false) :
    ∃ tokens, ReadsStmt levels blocks p tokens s p' := by
  cases hread : expression levels .assign p with
  | mk e p₁ =>
      simp only [exprStmt, hread] at hstmt
      obtain ⟨rfl, rfl⟩ := Prod.mk.inj hstmt
      obtain ⟨tokens, htokens, _⟩ := expression_sound levels .assign (by decide) hends hread
        (calm_of_imp (panicking_stable.expect _ _) hcalm)
      obtain ⟨hstop, hend⟩ :=
        reads_of_calm_expect (hends.of_reads htokens.toReads) (by decide) hcalm
      have hprevious : (p₁.expect .semicolon "';' after expression").previous = p₁.current :=
        hend.previous
      rw [hprevious]
      refine ⟨tokens ++ [p₁.current], ?_, .expr htokens.derives hstop .nil, htokens.nesting,
        trivial, hroom⟩
      simpa [Stmt.constants, Blocks.after, htokens.scope, hscope] using htokens.toReads.trans hend

theorem print_sound (hscope : p.scope = .ofBlocks blocks)
    (hroom : blocks.names.length ≤ Scope.capacity) (hends : p.EndsInEof)
    (hword : p.current.kind = .kwPrint) (hstmt : p.advance.print levels = (s, p'))
    (hcalm : p'.panicking = false) : ∃ tokens, ReadsStmt levels blocks p tokens s p' := by
  cases hread : (p.advance.expect .leftParen "'(' after 'print'").argument levels with
  | mk argument p₂ =>
      simp only [print, hread] at hstmt
      obtain ⟨rfl, rfl⟩ := Prod.mk.inj hstmt
      have hcalmClose := calm_of_imp (panicking_stable.expect _ _) hcalm
      have hcalmArgument := calm_of_imp (panicking_stable.expect _ _) hcalmClose
      have hkeeps := panicking_stable.argument levels
        (p := p.advance.expect .leftParen "'(' after 'print'")
      rw [hread] at hkeeps
      have hcalmOpening := calm_of_imp hkeeps hcalmArgument
      have hstart := reads_of_calm_advance hends (by simp [hword])
        (calm_of_imp (panicking_stable.expect _ _) hcalmOpening)
      obtain ⟨hopening, hparen⟩ := reads_of_calm_expect (hends.of_reads hstart) (by decide)
        hcalmOpening
      have hends₁ := hends.of_reads (hstart.trans hparen)
      obtain ⟨tokens, hargument, hlevels, hreads⟩ := argument_sound hends₁ hread hcalmArgument
      have hends₂ := hends₁.of_reads hreads
      obtain ⟨hclose, hcloseReads⟩ := reads_of_calm_expect hends₂ (by decide) hcalmClose
      obtain ⟨hstop, hstopReads⟩ := reads_of_calm_expect (hends₂.of_reads hcloseReads) (by decide)
        hcalm
      have hprint := ((hstart.trans hparen).trans hreads).trans (hcloseReads.trans hstopReads)
      rw [hparen.previous, hstopReads.previous]
      refine ⟨_, ?_, .print hword hopening hargument hclose hstop .nil, hlevels, trivial, hroom⟩
      simpa [Stmt.constants, Blocks.after, hcloseReads.scope, hreads.scope, hparen.scope,
        hstart.scope, hscope] using hprint

theorem simple_sound (hscope : p.scope = .ofBlocks blocks)
    (hroom : blocks.names.length ≤ Scope.capacity) (hends : p.EndsInEof)
    (hstmt : p.simple levels = (s, p')) (hcalm : p'.panicking = false) :
    ∃ tokens, ReadsStmt levels blocks p tokens s p' := by
  unfold simple at hstmt
  split at hstmt
  next hsees => exact print_sound hscope hroom hends (eq_of_beq hsees) hstmt hcalm
  next => exact exprStmt_sound hscope hroom hends hstmt hcalm

/-- A declaration, which binds a global outside all blocks and a block variable elsewhere. -/
theorem declare_sound (hscope : p.scope = .ofBlocks blocks)
    (hroom : blocks.names.length ≤ Scope.capacity) (hends : p.EndsInEof)
    (hword : p.current.kind = .kwDecl) (hstmt : p.advance.declare levels = (s, p'))
    (hcalm : p'.panicking = false) : ∃ tokens, ReadsStmt levels blocks p tokens s p' := by
  have hsees : p.advance.sees .identifier = true := by
    by_contra hsees
    rw [declare, if_neg hsees] at hstmt
    obtain ⟨rfl, rfl⟩ := Prod.mk.inj hstmt
    simp [reportNext] at hcalm
  have hname : p.advance.current.kind = .identifier := eq_of_beq hsees
  have hscope' : p.advance.advance.scope = .ofBlocks blocks :=
    (scope_stable _).advance ((scope_stable _).advance hscope)
  simp only [declare, if_pos hsees, previous_advance, hscope', Scope.depth_ofBlocks] at hstmt
  -- Both kinds of declaration start with the same two tokens, if the name is read without an error.
  have hstart : p.advance.advance.panicking = false →
      Reads p [p.current, p.advance.current] [] (.ofBlocks blocks) p.advance.advance := by
    intro hcalmName
    have hfirst := reads_of_calm_advance hends (by simp [hword])
      (calm_of_imp panicking_stable.advance hcalmName)
    have hsecond := reads_of_calm_advance (hends.of_reads hfirst) (by simp [hname]) hcalmName
    simpa [hfirst.scope, hscope] using hfirst.trans hsecond
  cases blocks with
  | nil =>
      cases hread :
          (p.advance.advance.intern (.str p.advance.current.lexeme)).initializer levels with
      | mk initial p₂ =>
          simp only [List.length_nil, if_true, hread] at hstmt
          obtain ⟨rfl, rfl⟩ := Prod.mk.inj hstmt
          have hnamed := hstart (calm_of_imp (panicking_stable.intern _)
            (calm_of_initializer hread hcalm))
          have hbefore := hnamed.trans (reads_intern _ (.str p.advance.current.lexeme))
          obtain ⟨tokens, hinitial, hstop, hlevels, _, hprevious, hreads⟩ :=
            initializer_sound (hends.of_reads hbefore) hread hcalm
          rw [hprevious]
          refine ⟨_, ?_, .decl hword hname hinitial hstop .nil, hlevels, trivial, hroom⟩
          simpa [Stmt.constants, Blocks.after, Blocks.declare, hbefore.scope, hnamed.scope] using
            hbefore.trans hreads
  | cons innermost outer =>
      cases hread :
          (p.advance.advance.declareLocal p.advance.current.lexeme).initializer levels with
      | mk initial p₂ =>
          simp only [List.length_cons, Nat.succ_ne_zero, if_false, hread] at hstmt
          obtain ⟨rfl, rfl⟩ := Prod.mk.inj hstmt
          obtain ⟨hfresh, hsize⟩ := declareLocal_sound hscope' (calm_of_initializer hread hcalm)
          have hentered := reads_declareLocal hscope' hfresh hsize
          have hbefore :=
            (hstart (hentered.fits (calm_of_initializer hread hcalm)).1).trans hentered
          obtain ⟨tokens, hinitial, hstop, hlevels, husable, hprevious, hreads⟩ :=
            initializer_sound (hends.of_reads hbefore) hread hcalm
          rw [hentered.scope] at husable hreads
          have hself : p.advance.current.lexeme ∉ Expr.namesOptional initial := by
            intro hmem
            exact husable _ hmem ((Scope.resolve_push_eq_iff _ _ _).mpr rfl)
          have hresult := (hbefore.trans hreads).trans
            (reads_scope _ (.ofBlocks ((p.advance.current.lexeme :: innermost) :: outer)))
          rw [hreads.scope, Scope.settle_push]
          refine ⟨p.current :: p.advance.current :: tokens ++ [p₂.current], ?_, ?_, hlevels,
            ⟨hfresh, hself⟩, hsize⟩
          · simpa [Stmt.constants, Blocks.after, Blocks.declare, Blocks.names] using hresult
          · rw [hprevious]
            exact .decl hword hname hinitial hstop .nil

end Forms

/-! ## Sequences of statements -/

/-- What has no diagnostics now had none before, and no panic either. -/
theorem calm_of_diagnostics_eq_nil {p : Parser} (hexplained : p.Explained)
    (hdiagnostics : p.diagnostics = []) : p.panicking = false := by
  cases hpanic : p.panicking with
  | false => rfl
  | true => exact absurd hdiagnostics (hexplained hpanic)

/-- The reader returns only statements that it has read without an error, or leaves diagnostics. -/
def SoundStmt (recovery : Bool) (levels : Nat) : Prop :=
  ∀ ⦃blocks : Blocks⦄ ⦃p p' : Parser⦄ ⦃s : Stmt⦄, p.scope = .ofBlocks blocks →
    blocks.names.length ≤ Scope.capacity → p.EndsInEof → p.Explained →
    declaration recovery levels p = .ok (s, p') → p'.diagnostics = [] →
    ∃ tokens, ReadsStmt levels blocks p tokens s p'

theorem ReadsBody.nil {levels : Nat} {blocks : Blocks} {p : Parser}
    (hscope : p.scope = .ofBlocks blocks) (hroom : blocks.names.length ≤ Scope.capacity) :
    ReadsBody levels blocks p [] [] p := by
  refine ⟨?_, .nil, Nat.zero_le _, trivial, hroom⟩
  have hrefl := Reads.refl p
  rwa [hscope] at hrefl

theorem ReadsStmt.room {levels : Nat} {blocks : Blocks} {p p' : Parser} {tokens : List Token}
    {s : Stmt} (hs : ReadsStmt levels blocks p tokens s p')
    (hroom : blocks.names.length ≤ Scope.capacity) :
    (blocks.after s).names.length ≤ Scope.capacity := by
  cases s with
  | decl name pos initial stop => exact hs.peak
  | expr | print | block => exact hroom

theorem ReadsStmt.cons {levels : Nat} {blocks : Blocks} {p p₁ p' : Parser}
    {tokens more : List Token} {s : Stmt} {body : List Stmt}
    (hs : ReadsStmt levels blocks p tokens s p₁)
    (hbody : ReadsBody levels (blocks.after s) p₁ more body p') :
    ReadsBody levels blocks p (tokens ++ more) (s :: body) p' where
  toReads := hs.toReads.trans hbody.toReads
  derives := hs.derives.append hbody.derives
  nesting := Nat.max_le.mpr ⟨hs.nesting, hbody.nesting⟩
  wellScoped := ⟨hs.wellScoped, hbody.wellScoped⟩
  peak := Nat.max_le.mpr ⟨hs.peak, hbody.peak⟩

theorem statements_sound {recovery : Bool} {levels : Nat} (hsound : SoundStmt recovery levels)
    {stops : TokenKind → Bool} (rounds : List Token) {acc result : Array Stmt} {blocks : Blocks}
    {p p' : Parser} (hscope : p.scope = .ofBlocks blocks)
    (hroom : blocks.names.length ≤ Scope.capacity) (hends : p.EndsInEof)
    (hexplained : p.Explained)
    (hstatements : statements (declaration recovery levels) stops rounds acc p = .ok (result, p'))
    (hdiagnostics : p'.diagnostics = []) :
    ∃ tokens body, result.toList = acc.toList ++ body ∧ ReadsBody levels blocks p tokens body p' ∧
      stops p'.current.kind = true := by
  induction rounds generalizing acc blocks p with
  | nil =>
      obtain ⟨hstops, rfl, rfl⟩ | ⟨_, _, _, _, hrounds, _⟩ := statements_cases hstatements
      · exact ⟨[], [], by simp, .nil hscope hroom, hstops⟩
      · contradiction
  | cons _ rounds ih =>
      obtain ⟨hstops, rfl, rfl⟩ | ⟨_, _, s, p₁, hrounds, hread, hrest⟩ :=
        statements_cases hstatements
      · exact ⟨[], [], by simp, .nil hscope hroom, hstops⟩
      · obtain ⟨_, rfl⟩ := List.cons.inj hrounds
        have hdiagnostics₁ : p₁.diagnostics = [] := by
          by_contra hreported
          exact (diagnostics_ne_nil_invariant.declaration recovery levels).statements rounds
            hreported hrest hdiagnostics
        obtain ⟨tokens, hs⟩ := hsound hscope hroom hends hexplained hread hdiagnostics₁
        obtain ⟨more, body, hresult, hbody, hstops⟩ := ih hs.scope (hs.room hroom)
          (hends.of_reads hs.toReads)
          (explained_invariant.declaration recovery levels p s p₁ hexplained hread) hrest
        exact ⟨tokens ++ more, s :: body, by simp [hresult], hs.cons hbody, hstops⟩

/-- Inside a block the same holds one level further down. -/
theorem block_sound {recovery : Bool} {levels : Nat} (hsound : SoundStmt recovery levels)
    {blocks : Blocks} {p p' : Parser} {s : Stmt} (hscope : p.scope = .ofBlocks blocks)
    (hroom : blocks.names.length ≤ Scope.capacity) (hends : p.EndsInEof) (hexplained : p.Explained)
    (hopening : p.current.kind = .leftBrace)
    (hblock : block (declaration recovery levels) p.advance = .ok (s, p'))
    (hdiagnostics : p'.diagnostics = []) :
    ∃ tokens, ReadsStmt (levels + 1) blocks p tokens s p' := by
  obtain ⟨body, p₁, p₂, hbody, rfl, rfl, rfl⟩ := block_cases hblock
  -- Reading backwards there are no diagnostics, reading forwards every panic has one.
  have hreports := diagnostics_ne_nil_invariant
  have hdiagnostics₁ : p₁.diagnostics = [] :=
    not_imp_not.mp (hreports.expect _ _) hdiagnostics
  have hdiagnostics₀ : p.advance.diagnostics = [] := by
    by_contra hreported
    exact (hreports.declaration recovery levels).statements _ (hreports.scope _ hreported) hbody
      hdiagnostics₁
  have hexplained₀ := explained_invariant.advance hexplained
  have hexplained₁ := (explained_invariant.declaration recovery levels).statements _
    (explained_invariant.scope _ hexplained₀) hbody
  have hcalm := calm_of_diagnostics_eq_nil (explained_invariant.expect _ _ hexplained₁)
    hdiagnostics
  have hstart := reads_of_calm_advance hends (by simp [hopening])
    (calm_of_diagnostics_eq_nil hexplained₀ hdiagnostics₀)
  have hentered := hstart.trans (reads_scope p.advance (.ofBlocks ([] :: blocks)))
  rw [hstart.scope, hscope, Scope.enter_ofBlocks] at hbody
  have hroom' : (Blocks.names ([] :: blocks)).length ≤ Scope.capacity := hroom
  obtain ⟨tokens, inner, hresult, hinner, _⟩ := statements_sound hsound _ rfl hroom'
    (hends.of_reads hentered) (explained_invariant.scope _ hexplained₀) hbody hdiagnostics₁
  obtain ⟨hclose, hend⟩ := reads_of_calm_expect
    (hends.of_reads (hentered.trans hinner.toReads)) (by decide) hcalm
  obtain ⟨names, hafter⟩ := Blocks.exists_afterAll_cons [] blocks inner
  rw [hend.scope, hinner.scope, hafter, Scope.leave_ofBlocks]
  have hprevious := hend.previous
  rw [List.getLast?_singleton, Option.getD_some] at hprevious
  rw [show body.toList = inner by simpa using hresult]
  have hreads := ((hentered.trans hinner.toReads).trans hend).trans
    (reads_scope _ (.ofBlocks blocks))
  refine ⟨p.current :: tokens ++ [p₁.current], ?_, ?_, Nat.succ_le_succ hinner.nesting,
    hinner.wellScoped, hinner.peak⟩
  · simpa [Stmt.constants, Blocks.after] using hreads
  · rw [hprevious]
    exact .block hopening hinner.derives hclose .nil

/-- What a statement reader returns without diagnostics is what it has read before it looks for a
panic to end. -/
theorem declarationOr_cases_of_clean {recovery : Bool} {levels : Nat} {read : StmtReader}
    {p p' : Parser} {s : Stmt} (hread : read.Keeps Explained) (hexplained : p.Explained)
    (hdeclaration : declarationOr recovery levels read p = .ok (s, p'))
    (hdiagnostics : p'.diagnostics = []) :
    p'.panicking = false ∧
      ((p.sees .kwDecl = true ∧ p.advance.declare levels = (s, p')) ∨ read p = .ok (s, p')) := by
  obtain ⟨q, hcases, rfl⟩ := declarationOr_cases hdeclaration
  have hq : q.Explained := by
    rcases hcases with ⟨_, hdeclare⟩ | hstmt
    · have hresult : (p.advance.declare levels).2 = q := congrArg Prod.snd hdeclare
      exact hresult ▸ explained_invariant.declare levels (explained_invariant.advance hexplained)
    · exact hread p s q hexplained hstmt
  split at hdiagnostics
  next hpanic =>
    have hreported := hq (Bool.and_eq_true_iff.mp hpanic).2
    exact absurd hdiagnostics (diagnostics_ne_nil_invariant.recover hreported)
  next hcalm =>
    rw [if_neg hcalm]
    exact ⟨calm_of_diagnostics_eq_nil hq hdiagnostics, hcases⟩

/-- Statements that leave no diagnostics are ones that the grammar derives. -/
theorem declaration_sound (recovery : Bool) (levels : Nat) : SoundStmt recovery levels := by
  have hexplains := explained_invariant.statement recovery levels
  induction levels with
  | zero =>
      intro blocks p p' s hscope hroom hends hexplained hdeclaration hdiagnostics
      obtain ⟨hcalm, ⟨hsees, hdeclare⟩ | hstatement⟩ :=
        declarationOr_cases_of_clean hexplains hexplained hdeclaration hdiagnostics
      · exact declare_sound hscope hroom hends (eq_of_beq hsees) hdeclare hcalm
      · rw [statement] at hstatement
        split at hstatement
        · obtain ⟨rfl, rfl⟩ := Prod.mk.inj (Except.ok.inj hstatement)
          simp [report] at hcalm
        · exact simple_sound hscope hroom hends (Except.ok.inj hstatement) hcalm
  | succ levels ih =>
      intro blocks p p' s hscope hroom hends hexplained hdeclaration hdiagnostics
      obtain ⟨hcalm, ⟨hsees, hdeclare⟩ | hstatement⟩ :=
        declarationOr_cases_of_clean hexplains hexplained hdeclaration hdiagnostics
      · exact declare_sound hscope hroom hends (eq_of_beq hsees) hdeclare hcalm
      · rw [statement] at hstatement
        split at hstatement
        next hsees =>
          exact block_sound (ih (explained_invariant.statement recovery levels)) hscope hroom hends
            hexplained (eq_of_beq hsees) hstatement hdiagnostics
        next => exact simple_sound hscope hroom hends (Except.ok.inj hstatement) hcalm

end Scriptlet.Parser
