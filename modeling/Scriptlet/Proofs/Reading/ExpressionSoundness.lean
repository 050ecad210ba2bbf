import Scriptlet.Proofs.Reading.Expressions

/-! # What an accepted expression was read from

If the reader of expressions is not in a panic afterwards, then the tokens it has taken form the
expression, its names could be used, its constants fitted and it was not nested too deeply. A panic
lasts to the end of the expression, so every step before has been without an error too.
-/

namespace Scriptlet.Parser

/-- From `p` to `p'` the parser takes `tokens`, which form `e`. -/
structure ReadsExpr (levels : Nat) (level : Expr.Level) (p : Parser) (tokens : List Token)
    (e : Expr) (p' : Parser) : Prop
    extends Reads p tokens (e.constants p.scope.names) p.scope p' where
  derives : e.Derives level tokens
  nesting : e.nesting < levels
  usable : Usable p.scope e

/-- The reader returns only expressions that it has read without an error, or is in a panic. -/
def Sound (levels : Nat) : Prop :=
  ∀ (least : Expr.Level) {p p' : Parser} {e : Expr}, least.rank ≤ Expr.Level.unary.rank →
    p.EndsInEof → expression levels least.precedence p = (e, p') → p'.panicking = false →
    ∃ tokens, ReadsExpr levels least p tokens e p' ∧ Stops least.precedence p'.current

theorem calm_of_imp {p p' : Parser} (himp : p.panicking = true → p'.panicking = true)
    (hcalm : p'.panicking = false) : p.panicking = false := by
  cases hpanic : p.panicking with
  | false => rfl
  | true =>
      rw [himp hpanic] at hcalm
      contradiction

theorem previous_reportAt (p : Parser) (token : Token) (error : CompileError) :
    (p.reportAt token error).previous = p.previous := by
  unfold reportAt
  split <;> rfl

theorem previous_fetch (p : Parser) (tokens : List Token) :
    (p.fetch tokens).previous = p.previous := by
  induction tokens generalizing p with
  | nil => rfl
  | cons token rest ih =>
      rw [fetch]
      split
      · rw [ih, previous_reportAt]
      · rfl

/-- Also where an error is reported, the token that was next has been read. -/
theorem previous_advance (p : Parser) : p.advance.previous = p.current :=
  previous_fetch _ _

/-! ## Operands -/

section Operands

variable {levels : Nat} {p p' : Parser} {e : Expr}

/-- A panic before an expression is still one after it. -/
theorem calm_of_expression {least : Precedence} (hread : expression levels least p = (e, p'))
    (hcalm : p'.panicking = false) : p.panicking = false := by
  have hkeeps := panicking_stable.expression levels least p
  rw [hread] at hkeeps
  exact calm_of_imp hkeeps hcalm

theorem readsExpr_group (hsound : Sound levels) (hends : p.EndsInEof)
    (hkind : p.current.kind = .leftParen)
    (hgroup : p.advance.group (expression levels) = (e, p')) (hcalm : p'.panicking = false) :
    ∃ tokens, ReadsExpr (levels + 1) .primary p tokens e p' := by
  cases hread : expression levels .assign p.advance with
  | mk inner p₁ =>
      simp only [group, hread] at hgroup
      obtain ⟨rfl, rfl⟩ := Prod.mk.inj hgroup
      have hinner := calm_of_imp (panicking_stable.expect _ _) hcalm
      have hopening := reads_of_calm_advance hends (by simp [hkind])
        (calm_of_expression hread hinner)
      have hends₁ := hends.of_reads hopening
      obtain ⟨tokens, htokens, _⟩ := hsound .assign (by decide) hends₁ hread hinner
      obtain ⟨hclose, hend⟩ := reads_of_calm_expect (hends₁.of_reads htokens.toReads)
        (by decide) hcalm
      have hprevious := hend.previous
      rw [List.getLast?_singleton, Option.getD_some] at hprevious
      rw [hprevious]
      refine ⟨_, ?_, .group hkind htokens.derives hclose, Nat.succ_lt_succ htokens.nesting, ?_⟩
      · simpa [Expr.constants, htokens.scope, hopening.scope] using
          (hopening.trans htokens.toReads).trans hend
      · exact hopening.scope ▸ htokens.usable

theorem readsExpr_unary (hsound : Sound levels) (hends : p.EndsInEof) {op : UnaryOp}
    (hop : (p.current.kind, op) ∈ Expr.signs)
    (hunary : p.advance.unary (expression levels) op = (e, p')) (hcalm : p'.panicking = false) :
    ∃ tokens, ReadsExpr (levels + 1) .unary p tokens e p' := by
  cases hread : expression levels .unary p.advance with
  | mk operand p₁ =>
      simp only [unary, hread] at hunary
      obtain ⟨rfl, rfl⟩ := Prod.mk.inj hunary
      have hkind : p.current.kind ≠ .eof := by
        intro heof
        simp [heof, Expr.signs] at hop
      have hsign := reads_of_calm_advance hends hkind (calm_of_expression hread hcalm)
      obtain ⟨tokens, htokens, _⟩ := hsound .unary (by decide) (hends.of_reads hsign) hread hcalm
      refine ⟨_, ?_, .unary hop htokens.derives, Nat.succ_lt_succ htokens.nesting, ?_⟩
      · simpa [Expr.constants, hsign.scope] using hsign.trans htokens.toReads
      · exact hsign.scope ▸ htokens.usable

/-- A name is read as a variable, or as the target of an assignment where one may stand. -/
theorem readsExpr_named (hsound : Sound levels) (hends : p.EndsInEof) {assignable : Bool}
    (hkind : p.current.kind = .identifier)
    (hnamed : p.advance.named (expression levels) assignable = (e, p'))
    (hcalm : p'.panicking = false) :
    (∃ tokens, ReadsExpr (levels + 1) .primary p tokens e p') ∨
      (assignable = true ∧ (∃ tokens, ReadsExpr (levels + 1) .assign p tokens e p') ∧
        Stops .assign p'.current) := by
  have hprevious := previous_advance p
  have hkeeps := panicking_stable.named (panicking_stable.expression levels) assignable
    (p := p.advance)
  rw [hnamed] at hkeeps
  have hname := reads_of_calm_advance hends (by simp [hkind]) (calm_of_imp hkeeps hcalm)
  have husable : p.advance.scope.resolve p.advance.previous.lexeme ≠ .uninitialized := by
    intro huninitialized
    simp only [named, if_pos huninitialized] at hnamed
    obtain ⟨rfl, rfl⟩ := Prod.mk.inj hnamed
    simp [report] at hcalm
  obtain ⟨p₁, hp₁, heq⟩ := named_eq (expression levels) assignable husable
  rw [heq, hprevious] at hnamed
  rw [hprevious, hname.scope] at hp₁ husable
  have hbefore := hname.trans hp₁
  split at hnamed
  next hassign =>
    obtain ⟨hassignable, hsees⟩ := Bool.and_eq_true_iff.mp hassign
    have hequal : p₁.current.kind = .equal := eq_of_beq hsees
    cases hread : expression levels .assign p₁.advance with
    | mk value p₂ =>
        rw [hread] at hnamed
        obtain ⟨rfl, rfl⟩ := Prod.mk.inj hnamed
        have hends₁ := hends.of_reads hbefore
        have hsign := reads_of_calm_advance hends₁ (by simp [hequal])
          (calm_of_expression hread hcalm)
        obtain ⟨tokens, htokens, hstops⟩ := hsound .assign (by decide)
          (hends₁.of_reads hsign) hread hcalm
        have hscope : p₁.advance.scope = p.scope := by rw [hsign.scope, hbefore.scope]
        refine .inr ⟨hassignable, ⟨_, ?_, .assign hkind hequal htokens.derives,
          Nat.succ_lt_succ htokens.nesting, ?_⟩, hstops⟩
        · simpa [Expr.constants, hscope] using (hbefore.trans hsign).trans htokens.toReads
        · exact List.forall_mem_cons.mpr ⟨husable, hscope ▸ htokens.usable⟩
  next =>
    obtain ⟨rfl, rfl⟩ := Prod.mk.inj hnamed
    refine .inl ⟨_, ?_, .var hkind, Nat.succ_pos _, ?_⟩
    · simpa [Expr.constants] using hbefore
    · exact List.forall_mem_singleton.mpr husable

/-- A token that denotes a value is read as that value. -/
theorem readsExpr_literal (hends : p.EndsInEof) {value : Value} {assignable : Bool}
    (hvalue : p.current.literal? = some value)
    (hoperand : p.advance.operand? (expression levels) assignable = some (e, p'))
    (hcalm : p'.panicking = false) :
    ∃ tokens, ReadsExpr (levels + 1) .primary p tokens e p' := by
  have hkind : p.current.kind ≠ .eof := by
    intro heof
    simp [Token.literal?, heof] at hvalue
  have hprevious := previous_advance p
  have hkeeps := fun hpanic => panicking_stable.operand? (panicking_stable.expression levels)
    assignable (p := p.advance) hpanic hoperand
  have htoken := reads_of_calm_advance hends hkind (calm_of_imp hkeeps hcalm)
  obtain ⟨p₁, heq, hp₁⟩ := operand?_literal (p := p.advance) (expression levels) assignable
    (hprevious ▸ hvalue)
  rw [heq, hprevious] at hoperand
  obtain ⟨rfl, rfl⟩ := Prod.mk.inj (Option.some.inj hoperand)
  refine ⟨_, ?_, .literal (Token.denotes_iff.mpr hvalue), Nat.succ_pos _, ?_⟩
  · simpa [Expr.constants, htoken.scope] using htoken.trans hp₁
  · exact fun name hname => absurd hname (List.not_mem_nil)

/-- The tokens with which an operand starts. -/
theorem operand_start {read : ExprReader} {assignable : Bool}
    (hoperand : p.operand? read assignable = some (e, p')) :
    p.previous.kind = .leftParen ∨ (∃ op, (p.previous.kind, op) ∈ Expr.signs) ∨
      p.previous.kind = .identifier ∨ ∃ value, p.previous.literal? = some value := by
  unfold operand? at hoperand
  unfold Token.literal?
  cases hkind : p.previous.kind <;> simp_all [Expr.signs]

/-- An operand is read at a level that no operator after it exceeds. -/
theorem readsExpr_operand (hsound : Sound levels) (hends : p.EndsInEof) {least : Expr.Level}
    (hleast : least.rank ≤ Expr.Level.unary.rank)
    (hoperand : p.advance.operand? (expression levels) (decide (least.precedence ≤ .assign)) =
      some (e, p')) (hcalm : p'.panicking = false) :
    ∃ level tokens, ReadsExpr (levels + 1) level p tokens e p' ∧ least.rank ≤ level.rank ∧
      p'.current.kind.precedence.rank ≤ level.precedence.rank := by
  have hprevious := previous_advance p
  have hweak := Nat.le_of_lt (rank_precedence_lt_unary p'.current.kind)
  have hprimary : Expr.Level.unary.rank ≤ Expr.Level.primary.rank := by decide
  have hstart := operand_start hoperand
  rw [hprevious] at hstart
  rcases hstart with hkind | ⟨op, hop⟩ | hkind | ⟨value, hvalue⟩
  · rw [operand?_leftParen _ _ (hprevious ▸ hkind)] at hoperand
    obtain ⟨tokens, htokens⟩ := readsExpr_group hsound hends hkind (Option.some.inj hoperand) hcalm
    exact ⟨_, tokens, htokens, Nat.le_trans hleast hprimary, Nat.le_trans hweak (by decide)⟩
  · rw [operand?_unary _ _ (hprevious ▸ hop)] at hoperand
    obtain ⟨tokens, htokens⟩ := readsExpr_unary hsound hends hop (Option.some.inj hoperand) hcalm
    exact ⟨_, tokens, htokens, hleast, hweak⟩
  · rw [operand?_identifier _ _ (hprevious ▸ hkind)] at hoperand
    rcases readsExpr_named hsound hends hkind (Option.some.inj hoperand) hcalm with
      ⟨tokens, htokens⟩ | ⟨hassignable, ⟨tokens, htokens⟩, hstops⟩
    · exact ⟨_, tokens, htokens, Nat.le_trans hleast hprimary, Nat.le_trans hweak (by decide)⟩
    · have hle : least.precedence.rank ≤ Expr.Level.assign.precedence.rank :=
        of_decide_eq_true hassignable
      exact ⟨_, tokens, htokens, Expr.Level.rank_precedence_le_iff.mp hle, Nat.le_of_lt hstops.1⟩
  · obtain ⟨tokens, htokens⟩ := readsExpr_literal hends hvalue hoperand hcalm
    exact ⟨_, tokens, htokens, Nat.le_trans hleast hprimary, Nat.le_trans hweak (by decide)⟩

end Operands

/-! ## Operators -/

theorem kind_ne_eof_of_binaryOp? {kind : TokenKind} {op : BinaryOp}
    (hop : kind.binaryOp? = some op) : kind ≠ .eof := by
  rintro rfl
  simp [TokenKind.binaryOp?] at hop

/-- Two operands and the operator between them. -/
theorem ReadsExpr.binary {levels : Nat} {strong level : Expr.Level} {p₀ p p' : Parser}
    {tokens more : List Token} {left right : Expr} {op : BinaryOp}
    (hleft : ReadsExpr (levels + 1) strong p₀ tokens left p)
    (hop : (p.current.kind, op) ∈ level.operators) (hlevel : level.rank ≤ strong.rank)
    (hsign : Reads p [p.current] [] p.scope p.advance)
    (hright : ReadsExpr levels level.next p.advance more right p') :
    ReadsExpr (levels + 1) level p₀ (tokens ++ p.current :: more) (.binary op left right) p' := by
  have hscope : p.advance.scope = p₀.scope := hsign.scope.trans hleft.scope
  refine ⟨?_, .binary (hleft.derives.weaken hlevel) hop hright.derives,
    Nat.max_lt.mpr ⟨hleft.nesting, Nat.succ_lt_succ hright.nesting⟩, ?_⟩
  · simpa [Expr.constants, hscope] using (hleft.toReads.trans hsign).trans hright.toReads
  · exact List.forall_mem_append.mpr ⟨hleft.usable, hscope ▸ hright.usable⟩

/-- The loop keeps an expression that has been read since `p₀`, at a level that the next operator
does not exceed. The rounds do not run out before the tokens do. -/
theorem readsExpr_operators {levels : Nat} (hsound : Sound levels) {least : Expr.Level}
    {p₀ : Parser} (hends : p₀.EndsInEof) (rounds : List Token) {level : Expr.Level}
    {tokens : List Token} {left e : Expr} {p p' : Parser}
    (hleft : ReadsExpr (levels + 1) level p₀ tokens left p) (hle : least.rank ≤ level.rank)
    (hrank : p.current.kind.precedence.rank ≤ level.precedence.rank)
    (hrounds : p.rest.length ≤ rounds.length)
    (hoperators : operators (expression levels) least.precedence rounds left p = (e, p'))
    (hcalm : p'.panicking = false) :
    ∃ tokens', ReadsExpr (levels + 1) least p₀ tokens' e p' ∧
      p'.current.kind.precedence.rank < least.precedence.rank := by
  have hassign : 0 < least.precedence.rank := by cases least <;> decide
  induction rounds generalizing level tokens left p with
  | nil =>
      -- No token is left after the current one, which is therefore `eof` and no operator.
      obtain ⟨rfl, rfl⟩ := Prod.mk.inj hoperators
      refine ⟨tokens, { hleft with derives := hleft.derives.weaken hle }, ?_⟩
      have heof := (hends.of_reads hleft.toReads).kind_eq_eof
        (List.length_eq_zero_iff.mp (Nat.le_zero.mp hrounds))
      rw [heof]
      exact hassign
  | cons round rounds ih =>
      rw [operators] at hoperators
      split at hoperators
      next hop =>
        obtain ⟨rfl, rfl⟩ := Prod.mk.inj hoperators
        refine ⟨tokens, { hleft with derives := hleft.derives.weaken hle }, ?_⟩
        rw [TokenKind.precedence, hop]
        exact hassign
      next op hop =>
        have hprecedence := precedence_eq_of_binaryOp? hop
        split at hoperators
        next hleast =>
          obtain ⟨operator, hmem⟩ := Expr.Level.exists_of_binaryOp? hop
          obtain ⟨_, hoperator, hnext⟩ := Expr.Level.binaryOp?_of_mem _ hmem
          cases hread : expression levels op.precedence.next p.advance with
          | mk right p₂ =>
              simp only [hread] at hoperators
              have hkeeps := panicking_stable.operators (panicking_stable.expression levels)
                least.precedence rounds (.binary op left right) (p := p₂)
              rw [hoperators] at hkeeps
              have hright := calm_of_imp hkeeps hcalm
              have hends₁ := hends.of_reads hleft.toReads
              have hsign := reads_of_calm_advance hends₁ (kind_ne_eof_of_binaryOp? hop)
                (calm_of_expression hread hright)
              obtain ⟨_, hsucc, hhigh⟩ := rank_next_precedence op
              rw [hnext] at hread hsucc hhigh
              obtain ⟨tokens₂, htokens₂, hstops⟩ := hsound operator.next
                (Expr.Level.rank_precedence_le_iff.mp hhigh) (hends₁.of_reads hsign) hread hright
              -- The operator and its right side join the left side, at the operator's level.
              rw [hprecedence, hoperator] at hrank
              have hleft' := hleft.binary hmem (Expr.Level.rank_precedence_le_iff.mp hrank) hsign
                htokens₂
              have hlength := congrArg List.length (hsign.trans htokens₂.toReads).upcoming
              rw [hoperator] at hleast hsucc
              refine ih hleft' (Expr.Level.rank_precedence_le_iff.mp hleast)
                (by have := hstops.1; omega) ?_ hoperators
              simp only [upcoming, List.length_cons, List.length_append] at hlength hrounds
              omega
        next hleast =>
          obtain ⟨rfl, rfl⟩ := Prod.mk.inj hoperators
          refine ⟨tokens, { hleft with derives := hleft.derives.weaken hle }, ?_⟩
          rw [hprecedence]
          exact Nat.lt_of_not_le hleast

/-- An expression that has been read without an error is one that the grammar derives. -/
theorem expression_sound (levels : Nat) : Sound levels := by
  induction levels with
  | zero =>
      intro least p p' e _ _ hread hcalm
      obtain ⟨rfl, rfl⟩ := Prod.mk.inj hread
      simp [report] at hcalm
  | succ levels ih =>
      intro least p p' e hunary hends hread hcalm
      rw [expression] at hread
      split at hread
      next =>
        obtain ⟨rfl, rfl⟩ := Prod.mk.inj hread
        simp [report] at hcalm
      next left p₁ hoperand =>
        cases hoperators : operators (expression levels) least.precedence p₁.rest left p₁ with
        | mk e₂ p₂ =>
            simp only [hoperators] at hread
            split at hread
            next =>
              obtain ⟨rfl, rfl⟩ := Prod.mk.inj hread
              simp [report] at hcalm
            next hequal =>
              obtain ⟨rfl, rfl⟩ := Prod.mk.inj hread
              have hkeeps := panicking_stable.operators (panicking_stable.expression levels)
                least.precedence p₁.rest left (p := p₁)
              rw [hoperators] at hkeeps
              obtain ⟨level, tokens, hleft, hle, hrank⟩ :=
                readsExpr_operand ih hends hunary hoperand (calm_of_imp hkeeps hcalm)
              obtain ⟨tokens', hresult, hlast⟩ := readsExpr_operators ih hends p₁.rest hleft
                hle hrank (Nat.le_refl _) hoperators hcalm
              refine ⟨tokens', hresult, hlast, ?_⟩
              intro hle hkind
              apply hequal
              rw [Bool.and_eq_true]
              exact ⟨decide_eq_true hle, beq_of_eq hkind⟩

end Scriptlet.Parser
