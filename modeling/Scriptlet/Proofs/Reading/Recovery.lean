import Scriptlet.Proofs.Acceptance
import Scriptlet.Proofs.Reading.Termination

/-! # Recovery only adds diagnostics

With and without recovery a script is read in the same way up to the first error. Without recovery
nothing ends the panic that follows, so nothing more is reported. With recovery more may be
reported, but what has been reported first stays first.
-/

namespace Scriptlet.Parser

/-- Nothing has been reported. -/
def Clean (p : Parser) : Prop := p.panicking = false ∧ p.diagnostics = []

/-- A single error has been reported, and the panic goes on. -/
def Failed (d : Diagnostic) (p : Parser) : Prop := p.panicking = true ∧ p.diagnostics = [d]

/-- `p` has been read to without recovery and `q` with it: both are in the same state and have
reported nothing, or what `q` has reported first is all that `p` has reported. -/
def InStep (p q : Parser) : Prop :=
  (p = q ∧ Clean p) ∨ ∃ d, Failed d p ∧ q.diagnostics.head? = some d

/-! ## One run -/

/-- A panic that does not end lets nothing more be reported. -/
theorem failed_lasting (d : Diagnostic) : Lasting (Failed d) where
  toStable := by
    refine .of_tokens ?_ (fun _ _ _ h => h) (fun _ h => h)
    intro p token error h
    rwa [reportAt, if_pos h.1]
  scope _ h := h

/-- Until the first error nothing is reported, and after it nothing more. -/
theorem clean_or_failed_lasting : Lasting fun p => Clean p ∨ ∃ d, Failed d p where
  toStable := by
    refine .of_tokens ?_ (fun _ _ _ h => h) (fun _ h => h)
    intro p token error h
    rcases h with ⟨hcalm, hnone⟩ | ⟨d, hfailed⟩
    · refine .inr ⟨.ofToken error token, panicking_reportAt p token error, ?_⟩
      simp [reportAt, hcalm, hnone]
    · exact .inr ⟨d, (failed_lasting d).reportAt token error hfailed⟩
  scope _ h := h

theorem head?_diagnostics_invariant (d : Diagnostic) :
    Invariant fun p => p.diagnostics.head? = some d where
  toStable := by
    refine .of_tokens ?_ (fun _ _ _ h => h) (fun _ h => h)
    intro p token error h
    obtain ⟨more, hmore⟩ := p.reportAt_diagnostics token error
    rw [← hmore, List.head?_append, h, Option.some_or]
  scope _ h := h
  calm h := h

/-! ## Two runs -/

theorem inStep_self {p : Parser} (hp : Clean p ∨ ∃ d, Failed d p) : InStep p p := by
  rcases hp with hclean | ⟨d, hfailed⟩
  · exact .inl ⟨rfl, hclean⟩
  · exact .inr ⟨d, hfailed, by rw [hfailed.2]; rfl⟩

/-- What is done to both alike keeps them in step. -/
theorem InStep.map {p q : Parser} (hstep : InStep p q) {f : Parser → Parser}
    (hfresh : (Clean p ∨ ∃ d, Failed d p) → (Clean (f p) ∨ ∃ d, Failed d (f p)))
    (hfailed : ∀ d, Failed d p → Failed d (f p))
    (hhead : ∀ d, q.diagnostics.head? = some d → (f q).diagnostics.head? = some d) :
    InStep (f p) (f q) := by
  rcases hstep with ⟨rfl, hclean⟩ | ⟨d, hp, hq⟩
  · exact inStep_self (hfresh (.inl hclean))
  · exact .inr ⟨d, hfailed d hp, hhead d hq⟩

/-- To end a panic does not take back what was reported. -/
theorem InStep.finish {p q : Parser} (hstep : InStep p q) :
    InStep p (if true && q.panicking then q.recover else q) := by
  rcases hstep with ⟨rfl, hclean⟩ | ⟨d, hp, hq⟩
  · rw [hclean.1]
    exact .inl ⟨rfl, hclean⟩
  · refine .inr ⟨d, hp, ?_⟩
    split
    · exact (head?_diagnostics_invariant d).recover hq
    · exact hq

/-- Without recovery `read`, and with it `read'`, take a parser that has reported nothing to states
that are in step. -/
def StmtReader.InStep (read read' : StmtReader) : Prop :=
  ∀ ⦃p s p' s' q'⦄, Clean p → read p = .ok (s, p') → read' p = .ok (s', q') → Parser.InStep p' q'

section Readers

variable {read read' : StmtReader} (hread : read.InStep read')

include hread

theorem StmtReader.InStep.declarationOr (levels : Nat) :
    (Parser.declarationOr false levels read).InStep (Parser.declarationOr true levels read') := by
  intro p s p' s' q' hclean hoff hon
  rw [declarationOr_eq] at hoff hon
  by_cases hdecl : p.sees .kwDecl = true
  · rw [if_pos hdecl] at hoff hon
    cases hoff
    cases hon
    have hfresh := clean_or_failed_lasting.declare levels
      (clean_or_failed_lasting.advance (.inl hclean))
    exact (inStep_self hfresh).finish
  · rw [if_neg hdecl] at hoff hon
    cases hs : read p with
    | error diagnostics =>
        rw [hs] at hoff
        contradiction
    | ok result =>
        cases hs' : read' p with
        | error diagnostics =>
            rw [hs'] at hon
            contradiction
        | ok result' =>
            rw [hs] at hoff
            rw [hs'] at hon
            cases hoff
            cases hon
            exact (hread hclean hs hs').finish

variable (hfailed : ∀ d, read.Keeps (Failed d))
  (hhead : ∀ d, read'.Keeps fun p => p.diagnostics.head? = some d)

include hfailed hhead

theorem StmtReader.InStep.statements {stops : TokenKind → Bool} {rounds : List Token}
    {body body' result result' : Array Stmt} {p q p' q' : Parser} (hstep : Parser.InStep p q)
    (hoff : Parser.statements read stops rounds body p = .ok (result, p'))
    (hon : Parser.statements read' stops rounds body' q = .ok (result', q')) :
    Parser.InStep p' q' := by
  induction rounds generalizing body body' p q with
  | nil =>
      rcases statements_cases hoff with ⟨_, _, rfl⟩ | ⟨_, _, _, _, hrounds, _⟩
      · rcases statements_cases hon with ⟨_, _, rfl⟩ | ⟨_, _, _, _, hrounds, _⟩
        · exact hstep
        · contradiction
      · contradiction
  | cons round rounds ih =>
      rcases hstep with ⟨rfl, hclean⟩ | ⟨d, hp, hq⟩
      · -- Both loops look at the same token, so both stop or both go on.
        by_cases hstop : stops p.current.kind = true
        · rw [statements_stop _ _ _ hstop] at hoff hon
          cases hoff
          cases hon
          exact .inl ⟨rfl, hclean⟩
        · rcases statements_cases hoff with ⟨h, _⟩ | ⟨_, _, s, p₁, hrounds, hs, hrest⟩
          · exact absurd h hstop
          rcases statements_cases hon with ⟨h, _⟩ | ⟨_, _, s', q₁, hrounds', hs', hrest'⟩
          · exact absurd h hstop
          obtain ⟨_, rfl⟩ := List.cons.inj hrounds
          obtain ⟨_, rfl⟩ := List.cons.inj hrounds'
          exact ih (hread hclean hs hs') hrest hrest'
      · exact .inr ⟨d, (hfailed d).statements _ hp hoff, (hhead d).statements _ hq hon⟩

/-- The brace of a block may be followed by an error already, so the block starts in step only. -/
theorem StmtReader.InStep.block {p p' q' : Parser} {s s' : Stmt} (hstep : Parser.InStep p p)
    (hoff : Parser.block read p = .ok (s, p')) (hon : Parser.block read' p = .ok (s', q')) :
    Parser.InStep p' q' := by
  obtain ⟨_, _, _, hbody, rfl, _, rfl⟩ := block_cases hoff
  obtain ⟨_, _, _, hbody', rfl, _, rfl⟩ := block_cases hon
  have hentered : Parser.InStep { p with scope := p.scope.enter }
      { p with scope := p.scope.enter } :=
    hstep.map (f := fun p => { p with scope := p.scope.enter }) (fun h => h) (fun _ h => h)
      (fun _ h => h)
  have hinside := hread.statements hfailed hhead hentered hbody hbody'
  have hclosed := hinside.map (f := expect .rightBrace "'\x7d' after block")
    (clean_or_failed_lasting.expect _ _) (fun d => (failed_lasting d).expect _ _)
    (fun d => (head?_diagnostics_invariant d).expect _ _)
  exact hclosed.map (f := fun p => { p with scope := p.scope.leave }) (fun h => h)
    (fun _ h => h) (fun _ h => h)

end Readers

theorem failed_keeps_declaration (levels : Nat) (d : Diagnostic) :
    (declaration false levels).Keeps (Failed d) :=
  (failed_lasting d).declaration (by simp) levels

theorem head?_keeps_declaration (levels : Nat) (d : Diagnostic) :
    (declaration true levels).Keeps fun p => p.diagnostics.head? = some d :=
  (head?_diagnostics_invariant d).declaration true levels

/-- What is not a block is read in the same way with and without recovery. -/
theorem inStep_of_simple {levels : Nat} {p p' q' : Parser} {s s' : Stmt} (hclean : Clean p)
    (hbrace : p.sees .leftBrace = false) (hoff : statement false levels p = .ok (s, p'))
    (hon : statement true levels p = .ok (s', q')) : InStep p' q' := by
  rw [statement_simple _ _ hbrace] at hoff hon
  have hfresh := clean_or_failed_lasting.simple levels (.inl hclean)
  rw [Except.ok.inj hoff] at hfresh hon
  obtain ⟨_, rfl⟩ := Prod.mk.inj (Except.ok.inj hon)
  exact inStep_self hfresh

theorem statement_inStep (levels : Nat) :
    (statement false levels).InStep (statement true levels) := by
  induction levels with
  | zero =>
      intro p s p' s' q' hclean hoff hon
      by_cases hbrace : p.sees .leftBrace = true
      · rw [statement, if_pos hbrace] at hoff hon
        cases hoff
        cases hon
        exact inStep_self (clean_or_failed_lasting.report _
          (clean_or_failed_lasting.advance (.inl hclean)))
      · exact inStep_of_simple hclean (by simpa using hbrace) hoff hon
  | succ levels ih =>
      intro p s p' s' q' hclean hoff hon
      by_cases hbrace : p.sees .leftBrace = true
      · rw [statement, if_pos hbrace] at hoff hon
        have hstep := inStep_self (clean_or_failed_lasting.advance (.inl hclean))
        exact (ih.declarationOr levels).block (failed_keeps_declaration levels)
          (head?_keeps_declaration levels) hstep hoff hon
      · exact inStep_of_simple hclean (by simpa using hbrace) hoff hon

/-- A whole script is read in step. -/
theorem ofTokens_inStep {tokens : List Token} {program program' : Program} {p q : Parser}
    (hoff : Program.ofTokens false tokens = .ok (program, p))
    (hon : Program.ofTokens true tokens = .ok (program', q)) : InStep p q := by
  obtain ⟨_, hbody, _⟩ := ofTokens_cases hoff
  obtain ⟨_, hbody', _⟩ := ofTokens_cases hon
  have hstart : InStep (start tokens).advance (start tokens).advance :=
    inStep_self (clean_or_failed_lasting.advance (.inl ⟨rfl, rfl⟩))
  exact ((statement_inStep maxNesting).declarationOr maxNesting).statements
    (failed_keeps_declaration maxNesting) (head?_keeps_declaration maxNesting) hstart hbody hbody'

end Parser

/-- A script that is rejected has been read to its end, if compiling it ends at all. -/
theorem Terminates.exists_ofTokens {recovery : Bool} {source : String} {rejection : Rejection}
    (hterminates : Terminates recovery source)
    (hcompile : compile recovery source = .error rejection) :
    ∃ program p, Program.ofTokens recovery (Token.ofSource source).toList = .ok (program, p) ∧
      p.diagnostics = rejection.diagnostics ∧ p.diagnostics ≠ [] := by
  have hended := (terminates_iff_ended recovery source).mp hterminates rejection hcompile
  unfold compile at hcompile
  split at hcompile
  next diagnostics hread =>
    obtain rfl := Except.error.inj hcompile
    exact absurd hended Bool.false_ne_true
  next program p hread =>
    split at hcompile
    next => cases hcompile
    next hdiagnostics =>
      obtain rfl := Except.error.inj hcompile
      exact ⟨program, p, hread, rfl, by simpa using hdiagnostics⟩

/-- Whether a script is accepted, and as which code, does not depend on recovery. -/
theorem compile_eq_ok_of_recovery {recovery : Bool} (other : Bool) {source : String} {chunk : Chunk}
    (hcompile : compile recovery source = .ok chunk) : compile other source = .ok chunk :=
  compile_eq_ok_iff.mpr (compile_eq_ok_iff.mp hcompile)

/-- Recovery only adds diagnostics. If reading a script ends with recovery and without it, either
both give the same code, or both reject the script: without recovery for a single reason, which is
also the first that is reported with recovery. -/
theorem compile_recovery {source : String} (hoff : Terminates false source)
    (hon : Terminates true source) :
    (∀ chunk, compile false source = .ok chunk ↔ compile true source = .ok chunk) ∧
      ∀ rejection rejection', compile false source = .error rejection →
        compile true source = .error rejection' →
        ∃ d, rejection.diagnostics = [d] ∧ rejection'.diagnostics.head? = some d := by
  refine ⟨fun chunk => ⟨compile_eq_ok_of_recovery true, compile_eq_ok_of_recovery false⟩, ?_⟩
  intro rejection rejection' hcompile hcompile'
  obtain ⟨program, p, hread, hp, hne⟩ := hoff.exists_ofTokens hcompile
  obtain ⟨program', q, hread', hq, _⟩ := hon.exists_ofTokens hcompile'
  rcases Parser.ofTokens_inStep hread hread' with ⟨_, hclean⟩ | ⟨d, hfailed, hhead⟩
  · exact absurd hclean.2 hne
  · exact ⟨d, hp ▸ hfailed.2, hq ▸ hhead⟩

/-- Three statements of this script are wrong. The second has a character that forms no token, and
the last is in a block. -/
def Program.badScript : String := "decl = 1; print(1) $ ; print(2); \x7b decl a = a; \x7d"

theorem compile_recovery_bad :
    ∃ rejection rejection', compile false Program.badScript = .error rejection ∧
      compile true Program.badScript = .error rejection' ∧ rejection'.diagnostics.length = 3 ∧
      ∃ d, rejection.diagnostics = [d] ∧ rejection'.diagnostics.head? = some d := by
  let first : Diagnostic := ⟨.expected "variable name after 'decl'", ⟨1, 6⟩, some "="⟩
  have hoff : compile false Program.badScript = .error ⟨[first], true⟩ := by
    decide +kernel
  have hon : compile true Program.badScript = .error ⟨[first,
      ⟨.lex "unexpected character", ⟨1, 20⟩, none⟩,
      ⟨.readInOwnInitializer "a", ⟨1, 45⟩, some "a"⟩], true⟩ := by
    decide +kernel
  have hends : Terminates false Program.badScript := by
    rw [terminates_iff_ended, hoff]
    intro rejection hrejection
    rw [← Except.error.inj hrejection]
  have hends' : Terminates true Program.badScript := by
    rw [terminates_iff_ended, hon]
    intro rejection hrejection
    rw [← Except.error.inj hrejection]
  exact ⟨_, _, hoff, hon, rfl, (compile_recovery hends hends').2 _ _ hoff hon⟩

end Scriptlet
