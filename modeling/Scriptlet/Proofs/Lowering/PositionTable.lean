import Scriptlet.Proofs.Acceptance
import Scriptlet.Proofs.Faults
import Scriptlet.Proofs.Lowering.Basic
import Scriptlet.Proofs.SourceOrder

/-! # Code follows the script

An instruction has the position of the token that was read last when all that it needs had been
read: of an operand or a name, of the last token of the operands of an operation, of the semicolon
or the brace at which a statement ends. So the instructions of a script come in the order of tokens
of the script, with any number of instructions for each token.
-/

namespace Scriptlet

namespace Code

/-- The positions of the instructions follow the tokens. -/
def Follows (tokens : List Token) (code : Code) : Prop :=
  Token.Follows tokens (code.map Prod.snd)

namespace Follows

variable {token : Token} {tokens : List Token} {code : Code} {instr : Instr}

theorem nil : Follows tokens [] :=
  Token.Follows.nil

theorem skip (hcode : Follows tokens code) : Follows (token :: tokens) code :=
  Token.Follows.skip hcode

theorem skipAll (hcode : Follows tokens code) (front : List Token) :
    Follows (front ++ tokens) code :=
  Token.Follows.skipAll hcode front

theorem emit (hcode : Follows (token :: tokens) code) :
    Follows (token :: tokens) ((instr, token.pos) :: code) :=
  Token.Follows.take hcode

theorem emitAll (hcode : Follows (token :: tokens) code) (instrs : List Instr) :
    Follows (token :: tokens) (instrs.map (·, token.pos) ++ code) := by
  induction instrs with
  | nil => exact hcode
  | cons instr instrs ih => exact ih.emit

end Follows

end Code

/-! ## Expressions -/

namespace Expr

variable {level : Level} {tokens rest : List Token} {e : Expr} (pool : Pool) (frame : Frame)
  {k : Code}

/-- What an expression leaves to be done at its end has the position of its last token. -/
theorem Derives.follows_last (he : Derives level tokens e) :
    ∃ front last, tokens = front ++ [last] ∧ last.pos = e.last ∧
      ∀ rest k, Code.Follows (last :: rest) k →
        Code.Follows (front ++ last :: rest) (e.code pool frame k) := by
  induction he with
  | stronger _ ih => exact ih
  | @assign name equal tokens e _ _ _ ih =>
      obtain ⟨front, last, rfl, hlast, hcode⟩ := ih
      refine ⟨name :: equal :: front, last, rfl, hlast, fun rest k hk => ?_⟩
      apply Code.Follows.skip
      apply Code.Follows.skip
      apply hcode
      rw [← hlast]
      exact .emit hk
  | @binary level op sign left right l r _ _ _ ihl ihr =>
      obtain ⟨before, middle, rfl, _, hleft⟩ := ihl
      obtain ⟨after, last, rfl, hlast, hright⟩ := ihr
      refine ⟨before ++ middle :: sign :: after, last, by simp, hlast, fun rest k hk => ?_⟩
      have hoperation : Code.Follows (last :: rest) (op.instrs.map (·, r.last) ++ k) :=
        hlast ▸ hk.emitAll op.instrs
      rw [List.append_assoc]
      exact hleft _ _ (.skip (.skip (hright rest _ hoperation)))
  | @unary op sign tokens e _ _ ih =>
      obtain ⟨front, last, rfl, hlast, hcode⟩ := ih
      refine ⟨sign :: front, last, rfl, hlast, fun rest k hk => ?_⟩
      apply Code.Follows.skip
      apply hcode
      rw [← hlast]
      exact .emit hk
  | @group opening close tokens e _ _ _ ih =>
      obtain ⟨front, last, rfl, _, hcode⟩ := ih
      refine ⟨opening :: front ++ [last], close, rfl, rfl, fun rest k hk => ?_⟩
      rw [List.append_assoc]
      exact .skip (hcode _ _ (.skip hk))
  | var => exact ⟨[], _, rfl, rfl, fun _ _ => .emit⟩
  | literal => exact ⟨[], _, rfl, rfl, fun _ _ => .emit⟩

theorem Derives.follows_code (he : Derives level tokens e) (hk : Code.Follows rest k) :
    Code.Follows (tokens ++ rest) (e.code pool frame k) := by
  obtain ⟨front, last, rfl, _, hcode⟩ := he.follows_last pool frame
  rw [List.append_assoc]
  exact hcode rest k (.skip hk)

/-- In place of an absent expression, nil has the position of the token before it. -/
theorem DerivesOptional.follows_code {e : Option Expr} (he : DerivesOptional tokens e)
    (opening : Token) (hk : Code.Follows rest k) :
    Code.Follows (opening :: tokens ++ rest) (codeOrNil pool frame opening.pos e k) := by
  cases e with
  | none => exact .emit (.skip (hk.skipAll tokens))
  | some e => exact .skip (Derives.follows_code pool frame he hk)

theorem DerivesInitial.follows_code {e : Option Expr} (he : DerivesInitial tokens e)
    (name : Token) (hk : Code.Follows rest k) :
    Code.Follows (name :: tokens ++ rest) (codeOrNil pool frame name.pos e k) := by
  cases e with
  | none => exact .emit (.skip (hk.skipAll tokens))
  | some e =>
      obtain ⟨equal, value, rfl, _, hvalue⟩ := he
      exact .skip (.skip (hvalue.follows_code pool frame hk))

end Expr

/-! ## Statements -/

namespace Stmt

variable {tokens rest : List Token} {body : List Stmt} {k : Code} (pool : Pool)

theorem follows_expr (frame : Frame) {e : Expr} (he : Expr.Derives .assign tokens e) (stop : Token)
    (hk : Code.Follows rest k) :
    Code.Follows (tokens ++ stop :: rest) ((Stmt.expr e stop.pos).code pool frame k) :=
  he.follows_code pool frame (.emit (.skip hk))

theorem follows_print (frame : Frame) {argument : Option Expr}
    (hargument : Expr.DerivesOptional tokens argument) (word opening close stop : Token)
    (hk : Code.Follows rest k) :
    Code.Follows (word :: opening :: tokens ++ close :: stop :: rest)
      ((Stmt.print argument opening.pos stop.pos).code pool frame k) :=
  .skip (hargument.follows_code pool frame opening (.skip (.emit (.skip hk))))

/-- A declaration ends with one instruction in a block and with two outside all blocks. -/
theorem follows_decl (frame : Frame) {initial : Option Expr}
    (hinitial : Expr.DerivesInitial tokens initial) (word name stop : Token) (instrs : List Instr)
    (hk : Code.Follows rest k) :
    Code.Follows (word :: name :: tokens ++ stop :: rest)
      (Expr.codeOrNil pool frame name.pos initial (instrs.map (·, stop.pos) ++ k)) :=
  .skip (hinitial.follows_code pool frame name (hk.skip.emitAll instrs))

/-- The variables of a block are dropped at the brace that closes it. -/
theorem Derives.follows_codeBody (hbody : Derives tokens body) (outer : Nat) (frame : Frame)
    {close : Token} (hk : Code.Follows (close :: rest) k) :
    Code.Follows (tokens ++ close :: rest) (codeBody pool outer close.pos frame body k) := by
  induction hbody generalizing outer frame close rest k with
  | nil =>
      rw [codeBody, ← List.map_replicate (f := (·, close.pos))]
      exact hk.emitAll _
  | @expr tokens stop others e body he _ _ ih =>
      rw [List.append_assoc]
      exact follows_expr pool frame he stop (ih outer frame hk)
  | @print word opening tokens parenthesis stop others argument body _ _ hargument _ _ _ ih =>
      rw [List.append_assoc]
      exact follows_print pool frame hargument word opening parenthesis stop (ih outer frame hk)
  | @decl word name tokens stop others initial body _ _ hinitial _ _ ih =>
      rw [List.append_assoc]
      exact follows_decl pool frame hinitial word name stop [.declLocal frame.size]
        (ih outer (frame.declare name.lexeme) hk)
  | @block opening tokens brace others inner body _ _ _ _ ihInner ih =>
      rw [List.append_assoc]
      exact .skip (ihInner frame.size frame (.skip (ih outer frame hk)))

theorem Derives.follows_topCode (hbody : Derives tokens body) (hk : Code.Follows rest k) :
    Code.Follows (tokens ++ rest) (body.foldr (·.topCode pool) k) := by
  induction hbody with
  | nil => exact hk
  | @expr tokens stop others e body he _ _ ih =>
      rw [List.append_assoc]
      exact follows_expr pool .empty he stop ih
  | @print word opening tokens close stop others argument body _ _ hargument _ _ _ ih =>
      rw [List.append_assoc]
      exact follows_print pool .empty hargument word opening close stop ih
  | @decl word name tokens stop others initial body _ _ hinitial _ _ ih =>
      rw [List.append_assoc]
      exact follows_decl pool .empty hinitial word name stop
        [.declGlobal (pool.index (.str name.lexeme)), .pop] ih
  | @block opening tokens close others inner body _ hinner _ _ _ ih =>
      rw [List.append_assoc]
      exact .skip (hinner.follows_codeBody pool 0 .empty (.skip ih))

end Stmt

/-! ## Scripts -/

theorem Program.Derives.follows_code {tokens : List Token} {program : Program}
    (hprogram : Program.Derives tokens program) (pool : Pool) :
    Code.Follows tokens (program.code pool) := by
  obtain ⟨hbody, _⟩ := hprogram
  exact hbody.follows_topCode pool (.emit .nil)

end Scriptlet
