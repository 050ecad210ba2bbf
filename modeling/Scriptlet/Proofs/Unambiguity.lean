import Scriptlet.Proofs.Reading.Statements

/-! # The grammar is unambiguous

The tokens of a script derive at most one tree. For an expression this follows from the reader,
which finds every tree that can be derived: it cannot return two. The form of a statement is decided
by its first token.
-/

namespace Scriptlet

/-- An expression up to a token that ends one is determined by the tokens. -/
theorem Expr.Derives.unique {tokens₁ tokens₂ rest₁ rest₂ : List Token} {e₁ e₂ : Expr}
    {next₁ next₂ : Token} (he₁ : Derives .assign tokens₁ e₁) (he₂ : Derives .assign tokens₂ e₂)
    (hnext₁ : next₁.kind = .semicolon ∨ next₁.kind = .rightParen)
    (hnext₂ : next₂.kind = .semicolon ∨ next₂.kind = .rightParen)
    (heq : tokens₁ ++ next₁ :: rest₁ = tokens₂ ++ next₂ :: rest₂) :
    tokens₁ = tokens₂ ∧ e₁ = e₂ ∧ next₁ = next₂ ∧ rest₁ = rest₂ := by
  -- A parser in front of the tokens, outside all blocks, so that every name can be used.
  obtain ⟨first, others, hfirst⟩ : ∃ first others, tokens₁ ++ next₁ :: rest₁ = first :: others :=
    List.exists_cons_of_ne_nil (by simp)
  let p : Parser := { Parser.start others with current := first }
  have husable : ∀ e, Parser.Usable p.scope e := fun e name _ => Scope.resolve_ofBlocks_ne [] name
  -- It has levels enough for both expressions, and so returns both.
  obtain ⟨p₁, hread₁, hreads₁⟩ := Parser.expression_complete he₁ (p := p)
    (Nat.lt_succ_of_le (Nat.le_max_left e₁.nesting e₂.nesting)) (husable e₁) hfirst.symm hnext₁
  obtain ⟨p₂, hread₂, hreads₂⟩ := Parser.expression_complete he₂ (p := p)
    (Nat.lt_succ_of_le (Nat.le_max_right e₁.nesting e₂.nesting)) (husable e₂)
    (hfirst.symm.trans heq) hnext₂
  obtain ⟨rfl, rfl⟩ := Prod.mk.inj (hread₁.symm.trans hread₂)
  obtain rfl : tokens₁ = tokens₂ :=
    List.append_cancel_right (hreads₁.upcoming.symm.trans hreads₂.upcoming)
  obtain ⟨rfl, rfl⟩ := List.cons.inj (List.append_cancel_left heq)
  exact ⟨rfl, rfl, rfl, rfl⟩

theorem Expr.DerivesOptional.unique {tokens₁ tokens₂ rest₁ rest₂ : List Token}
    {e₁ e₂ : Option Expr} {close₁ close₂ : Token} (he₁ : DerivesOptional tokens₁ e₁)
    (he₂ : DerivesOptional tokens₂ e₂) (hclose₁ : close₁.kind = .rightParen)
    (hclose₂ : close₂.kind = .rightParen)
    (heq : tokens₁ ++ close₁ :: rest₁ = tokens₂ ++ close₂ :: rest₂) :
    e₁ = e₂ ∧ close₁ = close₂ ∧ rest₁ = rest₂ := by
  -- A parenthesis starts no expression.
  have hmixed : ∀ {tokens rest rest' : List Token} {e : Expr} {close : Token},
      Derives .assign tokens e → close.kind = .rightParen → close :: rest ≠ tokens ++ rest' := by
    intro tokens rest rest' e close he hclose heq
    obtain ⟨first, others, rfl, hfirst⟩ := he.exists_head
    obtain ⟨rfl, _⟩ := List.cons.inj heq
    simp [hclose, TokenKind.startsExpr] at hfirst
  cases e₁ with
  | none =>
      obtain rfl : tokens₁ = [] := he₁
      cases e₂ with
      | none =>
          obtain rfl : tokens₂ = [] := he₂
          exact ⟨rfl, List.cons.inj heq⟩
      | some e₂ => exact absurd heq (hmixed he₂ hclose₁)
  | some e₁ =>
      cases e₂ with
      | none =>
          obtain rfl : tokens₂ = [] := he₂
          exact absurd heq.symm (hmixed he₁ hclose₂)
      | some e₂ =>
          obtain ⟨_, rfl, hclose, hrest⟩ :=
            Derives.unique he₁ he₂ (.inr hclose₁) (.inr hclose₂) heq
          exact ⟨rfl, hclose, hrest⟩

theorem Expr.DerivesInitial.unique {tokens₁ tokens₂ rest₁ rest₂ : List Token}
    {e₁ e₂ : Option Expr} {stop₁ stop₂ : Token} (he₁ : DerivesInitial tokens₁ e₁)
    (he₂ : DerivesInitial tokens₂ e₂) (hstop₁ : stop₁.kind = .semicolon)
    (hstop₂ : stop₂.kind = .semicolon)
    (heq : tokens₁ ++ stop₁ :: rest₁ = tokens₂ ++ stop₂ :: rest₂) :
    e₁ = e₂ ∧ stop₁ = stop₂ ∧ rest₁ = rest₂ := by
  cases e₁ with
  | none =>
      obtain rfl : tokens₁ = [] := he₁
      cases e₂ with
      | none =>
          obtain rfl : tokens₂ = [] := he₂
          exact ⟨rfl, List.cons.inj heq⟩
      | some e₂ =>
          obtain ⟨equal, value, rfl, hequal, _⟩ := he₂
          obtain ⟨rfl, _⟩ := List.cons.inj heq
          simp [hequal] at hstop₁
  | some e₁ =>
      obtain ⟨equal, value, rfl, hequal, hvalue⟩ := he₁
      cases e₂ with
      | none =>
          obtain rfl : tokens₂ = [] := he₂
          obtain ⟨rfl, _⟩ := List.cons.inj heq
          simp [hequal] at hstop₂
      | some e₂ =>
          obtain ⟨equal', value', rfl, _, hvalue'⟩ := he₂
          obtain ⟨_, rfl, hstop, hrest⟩ :=
            hvalue.unique hvalue' (.inl hstop₁) (.inl hstop₂) (List.cons.inj heq).2
          exact ⟨rfl, hstop, hrest⟩

/-! ## Statements -/

inductive StmtForm where
  | expr
  | print
  | decl
  | block

/-- The form of the statement that a token starts. -/
def TokenKind.form? (kind : TokenKind) : Option StmtForm :=
  match kind with
  | .kwPrint => some .print
  | .kwDecl => some .decl
  | .leftBrace => some .block
  | kind => if kind.startsExpr then some .expr else none

def Stmt.form : Stmt → StmtForm
  | .expr _ _ => .expr
  | .print _ _ _ => .print
  | .decl _ _ _ _ => .decl
  | .block _ _ => .block

theorem TokenKind.form?_of_startsExpr {kind : TokenKind} (hkind : kind.startsExpr = true) :
    kind.form? = some .expr := by
  cases kind <;> simp_all [startsExpr, form?]

/-- The first token tells whether there is a statement, and its form. -/
theorem Stmt.Derives.form_head? {tokens rest : List Token} {body : List Stmt} {stop : Token}
    (hbody : Stmt.Derives tokens body) (hstop : stop.kind.form? = none) :
    (tokens ++ stop :: rest).head?.bind (·.kind.form?) = body.head?.map Stmt.form := by
  cases hbody with
  | nil => simp [hstop]
  | expr he _ _ =>
      obtain ⟨first, others, rfl, hfirst⟩ := he.exists_head
      simp [TokenKind.form?_of_startsExpr hfirst, Stmt.form]
  | print hword _ _ _ _ _ => simp [hword, TokenKind.form?, Stmt.form]
  | decl hword _ _ _ _ => simp [hword, TokenKind.form?, Stmt.form]
  | block hopening _ _ _ => simp [hopening, TokenKind.form?, Stmt.form]

theorem Stmt.Derives.form_eq {tokens₁ tokens₂ rest₁ rest₂ : List Token} {body₁ body₂ : List Stmt}
    {stop₁ stop₂ : Token} (hbody₁ : Stmt.Derives tokens₁ body₁)
    (hbody₂ : Stmt.Derives tokens₂ body₂) (hstop₁ : stop₁.kind.form? = none)
    (hstop₂ : stop₂.kind.form? = none)
    (heq : tokens₁ ++ stop₁ :: rest₁ = tokens₂ ++ stop₂ :: rest₂) :
    body₁.head?.map Stmt.form = body₂.head?.map Stmt.form := by
  have hform₁ : (tokens₁ ++ stop₁ :: rest₁).head?.bind (·.kind.form?) = body₁.head?.map Stmt.form :=
    hbody₁.form_head? hstop₁
  rw [← hform₁, heq, hbody₂.form_head? hstop₂]

/-- Statements up to a token that starts none are determined by the tokens. -/
theorem Stmt.Derives.unique {tokens₁ tokens₂ rest₁ rest₂ : List Token} {body₁ body₂ : List Stmt}
    {stop₁ stop₂ : Token} (hbody₁ : Stmt.Derives tokens₁ body₁)
    (hbody₂ : Stmt.Derives tokens₂ body₂) (hstop₁ : stop₁.kind.form? = none)
    (hstop₂ : stop₂.kind.form? = none)
    (heq : tokens₁ ++ stop₁ :: rest₁ = tokens₂ ++ stop₂ :: rest₂) :
    body₁ = body₂ ∧ stop₁ = stop₂ ∧ rest₁ = rest₂ := by
  induction hbody₁ generalizing tokens₂ body₂ stop₁ stop₂ rest₁ rest₂ with
  | nil =>
      have hform := Stmt.Derives.nil.form_eq hbody₂ hstop₁ hstop₂ heq
      cases hbody₂ with
      | nil => exact ⟨rfl, List.cons.inj heq⟩
      | _ => simp at hform
  | expr he₁ hsemi₁ hrest₁ ih =>
      have hform := (Stmt.Derives.expr he₁ hsemi₁ hrest₁).form_eq hbody₂ hstop₁ hstop₂ heq
      cases hbody₂ with
      | expr he₂ hsemi₂ hrest₂ =>
          simp only [List.append_assoc, List.cons_append] at heq
          obtain ⟨_, rfl, rfl, hmore⟩ := he₁.unique he₂ (.inl hsemi₁) (.inl hsemi₂) heq
          obtain ⟨rfl, hstop⟩ := ih hrest₂ hstop₁ hstop₂ hmore
          exact ⟨rfl, hstop⟩
      | _ => simp [Stmt.form] at hform
  | print hword₁ hopening₁ hargument₁ hclose₁ hsemi₁ hrest₁ ih =>
      have hform := (Stmt.Derives.print hword₁ hopening₁ hargument₁ hclose₁ hsemi₁ hrest₁).form_eq
        hbody₂ hstop₁ hstop₂ heq
      cases hbody₂ with
      | print _ _ hargument₂ hclose₂ hsemi₂ hrest₂ =>
          simp only [List.append_assoc, List.cons_append] at heq
          obtain ⟨_, htokens⟩ := List.cons.inj heq
          obtain ⟨rfl, hargument⟩ := List.cons.inj htokens
          obtain ⟨rfl, _, hafter⟩ := hargument₁.unique hargument₂ hclose₁ hclose₂ hargument
          obtain ⟨rfl, hmore⟩ := List.cons.inj hafter
          obtain ⟨rfl, hstop⟩ := ih hrest₂ hstop₁ hstop₂ hmore
          exact ⟨rfl, hstop⟩
      | _ => simp [Stmt.form] at hform
  | decl hword₁ hname₁ hinitial₁ hsemi₁ hrest₁ ih =>
      have hform := (Stmt.Derives.decl hword₁ hname₁ hinitial₁ hsemi₁ hrest₁).form_eq
        hbody₂ hstop₁ hstop₂ heq
      cases hbody₂ with
      | decl _ _ hinitial₂ hsemi₂ hrest₂ =>
          simp only [List.append_assoc, List.cons_append] at heq
          obtain ⟨_, htokens⟩ := List.cons.inj heq
          obtain ⟨rfl, hinitial⟩ := List.cons.inj htokens
          obtain ⟨rfl, rfl, hmore⟩ := hinitial₁.unique hinitial₂ hsemi₁ hsemi₂ hinitial
          obtain ⟨rfl, hstop⟩ := ih hrest₂ hstop₁ hstop₂ hmore
          exact ⟨rfl, hstop⟩
      | _ => simp [Stmt.form] at hform
  | block hopening₁ hinner₁ hclose₁ hrest₁ ihInner ih =>
      have hform := (Stmt.Derives.block hopening₁ hinner₁ hclose₁ hrest₁).form_eq
        hbody₂ hstop₁ hstop₂ heq
      cases hbody₂ with
      | block _ hinner₂ hclose₂ hrest₂ =>
          simp only [List.append_assoc, List.cons_append] at heq
          have hbrace : TokenKind.rightBrace.form? = none := rfl
          obtain ⟨_, hinner⟩ := List.cons.inj heq
          obtain ⟨rfl, rfl, hmore⟩ := ihInner hinner₂ (hclose₁ ▸ hbrace) (hclose₂ ▸ hbrace) hinner
          obtain ⟨rfl, hstop⟩ := ih hrest₂ hstop₁ hstop₂ hmore
          exact ⟨rfl, hstop⟩
      | _ => simp [Stmt.form] at hform

/-- The tokens of a script derive at most one tree. -/
theorem Program.Derives.unique {tokens : List Token} {program₁ program₂ : Program}
    (hprogram₁ : Program.Derives tokens program₁) (hprogram₂ : Program.Derives tokens program₂) :
    program₁ = program₂ := by
  have heof : ∀ {stop : Token}, stop.kind = .eof → stop.kind.form? = none := by
    intro stop hstop
    simp [hstop, TokenKind.form?, TokenKind.startsExpr]
  generalize htokens : tokens = tokens' at hprogram₂
  obtain ⟨hbody₁, hstop₁⟩ := hprogram₁
  obtain ⟨hbody₂, hstop₂⟩ := hprogram₂
  obtain ⟨rfl, rfl, _⟩ := hbody₁.unique hbody₂ (heof hstop₁) (heof hstop₂) htokens
  rfl

end Scriptlet
