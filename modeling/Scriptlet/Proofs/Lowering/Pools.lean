import Scriptlet.Proofs.Lowering.Basic
import Scriptlet.Proofs.Running

/-! # Code over different pools

An instruction refers to a constant by its index, which depends on what else the pool holds. What
the code of a tree does depends on the constants alone: over two pools that both hold the constants
of a tree, its code does the same.
-/

namespace Scriptlet

namespace Machine

variable {pool other : Pool}

/-- A literal is pushed as it is. -/
theorem step_load {value : Value} (hvalue : pool.Holds value.pooled) :
    step pool (pool.load value) = push value := by
  have hconstant : ∀ {value : Value}, .ofValue value ∈ pool.held →
      step pool (.constant (pool.index value)) = push value := by
    intro value hvalue
    rw [step, constant, Pool.get?_index hvalue]
    rfl
  cases value with
  | nil => rfl
  | bool b => cases b <;> rfl
  | int | float | str => exact hconstant (hvalue _ List.mem_cons_self)

theorem globalName_index {name : String} (hname : .ofValue (.str name) ∈ pool.held) :
    globalName pool (pool.index (.str name)) = pure name := by
  rw [globalName, constant, Pool.get?_index hname]
  rfl

/-- An instruction that names a global does the same over all pools that hold the name. -/
theorem step_name_eq {instr : Nat → Instr}
    (hinstr : instr = .declGlobal ∨ instr = .setGlobal ∨ instr = .getGlobal) {name : String}
    (hpool : .ofValue (.str name) ∈ pool.held) (hother : .ofValue (.str name) ∈ other.held) :
    step pool (instr (pool.index (.str name))) = step other (instr (other.index (.str name))) := by
  rcases hinstr with rfl | rfl | rfl
  all_goals simp only [step, globalName_index hpool, globalName_index hother]

section Variables

variable {names : List String} {name : String} (hpool : pool.Holds (Blocks.pooledName names name))
  (hother : other.Holds (Blocks.pooledName names name))

include hpool hother

theorem step_read_eq :
    step pool (pool.read (.ofNames names) name) =
      step other (other.read (.ofNames names) name) := by
  unfold Pool.read
  cases hslot : (Frame.ofNames names).slot? name with
  | some slot => rfl
  | none =>
      have hname := Frame.slot?_ofNames_eq_none_iff.mp hslot
      exact step_name_eq (.inr (.inr rfl)) (hpool.mem_of_not_mem hname)
        (hother.mem_of_not_mem hname)

theorem step_write_eq :
    step pool (pool.write (.ofNames names) name) =
      step other (other.write (.ofNames names) name) := by
  unfold Pool.write
  cases hslot : (Frame.ofNames names).slot? name with
  | some slot => rfl
  | none =>
      have hname := Frame.slot?_ofNames_eq_none_iff.mp hslot
      exact step_name_eq (.inr (.inl rfl)) (hpool.mem_of_not_mem hname)
        (hother.mem_of_not_mem hname)

end Variables

theorem perform_binaryOp_eq (op : BinaryOp) : perform pool op.instrs = perform other op.instrs := by
  cases op <;> rfl

theorem perform_replicate_pop_eq (count : Nat) :
    perform pool (List.replicate count .pop) = perform other (List.replicate count .pop) := by
  induction count with
  | zero => rfl
  | succ count ih =>
      rw [List.replicate_succ, perform_cons, perform_cons, ih]
      rfl

end Machine

open Machine

section Trees

variable {pool other : Pool} {names : List String}

/-- In front of code that does the same over both pools, so does the code of an expression. -/
theorem Expr.perform_code_eq {e : Expr} (hpool : pool.Holds (e.constants names))
    (hother : other.Holds (e.constants names)) {k k' : Code}
    (hk : perform pool (k.map Prod.fst) = perform other (k'.map Prod.fst)) :
    perform pool ((e.code pool (.ofNames names) k).map Prod.fst) =
      perform other ((e.code other (.ofNames names) k').map Prod.fst) := by
  induction e generalizing k k' with
  | literal value pos =>
      simp only [Expr.code, List.map_cons, perform_cons, step_load hpool, step_load hother, hk]
  | var name pos =>
      simp only [Expr.code, List.map_cons, perform_cons, step_read_eq hpool hother, hk]
  | assign name value ih =>
      obtain ⟨hname, hvalue⟩ := Pool.holds_append.mp hpool
      obtain ⟨hname', hvalue'⟩ := Pool.holds_append.mp hother
      refine ih hvalue hvalue' ?_
      simp only [List.map_cons, perform_cons, step_write_eq hname hname', hk]
  | group inner close ih => exact ih hpool hother hk
  | unary op operand ih =>
      refine ih hpool hother ?_
      simp only [List.map_cons, perform_cons, hk]
      cases op <;> rfl
  | binary op left right ihl ihr =>
      obtain ⟨hleft, hright⟩ := Pool.holds_append.mp hpool
      obtain ⟨hleft', hright'⟩ := Pool.holds_append.mp hother
      refine ihl hleft hleft' (ihr hright hright' ?_)
      have hfst : (op.instrs.map (·, right.last)).map Prod.fst = op.instrs := by
        simp [Function.comp_def]
      rw [List.map_append, List.map_append, hfst, perform_append, perform_append, hk,
        perform_binaryOp_eq op]

theorem Expr.perform_codeOrNil_eq {e : Option Expr}
    (hpool : pool.Holds (Expr.constantsOptional names e))
    (hother : other.Holds (Expr.constantsOptional names e)) (pos : Pos) {k k' : Code}
    (hk : perform pool (k.map Prod.fst) = perform other (k'.map Prod.fst)) :
    perform pool ((Expr.codeOrNil pool (.ofNames names) pos e k).map Prod.fst) =
      perform other ((Expr.codeOrNil other (.ofNames names) pos e k').map Prod.fst) := by
  cases e with
  | none =>
      simp only [Expr.codeOrNil, List.map_cons, perform_cons, hk]
      rfl
  | some e => exact Expr.perform_code_eq hpool hother hk

mutual

theorem Stmt.perform_code_eq {blocks : Blocks} : ∀ {s : Stmt},
    (s.isDecl = true → blocks ≠ []) → pool.Holds (s.constants blocks) →
    other.Holds (s.constants blocks) → s.WellScoped blocks → ∀ {k k' : Code},
    perform pool (k.map Prod.fst) = perform other (k'.map Prod.fst) →
    perform pool ((s.code pool (.ofNames blocks.names) k).map Prod.fst) =
      perform other ((s.code other (.ofNames blocks.names) k').map Prod.fst)
  | .expr value stop, _, hpool, hother, _, _, _, hk => by
      refine Expr.perform_code_eq hpool hother ?_
      simp only [List.map_cons, perform_cons, hk]
      rfl
  | .print argument opening stop, _, hpool, hother, _, _, _, hk => by
      refine Expr.perform_codeOrNil_eq hpool hother opening ?_
      simp only [List.map_cons, perform_cons, hk]
      rfl
  | .decl name pos initial stop, hblock, hpool, hother, hscoped, _, _, hk => by
      obtain ⟨innermost, outer, rfl⟩ := List.exists_cons_of_ne_nil (hblock rfl)
      rw [Stmt.constants_decl hscoped] at hpool hother
      refine Expr.perform_codeOrNil_eq hpool hother pos ?_
      simp only [List.map_cons, perform_cons, hk]
      rfl
  | .block inner close, _, hpool, hother, hscoped, _, _, hk => by
      rw [Stmt.code, Stmt.code, Frame.size_ofNames]
      exact Stmt.perform_codeBody_eq hpool hother hscoped hk

theorem Stmt.perform_codeBody_eq {innermost : List String} {outer : Blocks} {close : Pos} :
    ∀ {body : List Stmt}, pool.Holds (Stmt.constantsAll (innermost :: outer) body) →
    other.Holds (Stmt.constantsAll (innermost :: outer) body) →
    Stmt.WellScopedAll (innermost :: outer) body → ∀ {k k' : Code},
    perform pool (k.map Prod.fst) = perform other (k'.map Prod.fst) →
    perform pool ((Stmt.codeBody pool outer.names.length close
        (.ofNames (Blocks.names (innermost :: outer))) body k).map Prod.fst) =
      perform other ((Stmt.codeBody other outer.names.length close
        (.ofNames (Blocks.names (innermost :: outer))) body k').map Prod.fst)
  | [], _, _, _, _, _, hk => by
      rw [Stmt.codeBody, Stmt.codeBody, List.map_append, List.map_append, List.map_replicate,
        perform_append, perform_append, hk, perform_replicate_pop_eq]
  | s :: rest, hpool, hother, hscoped, _, _, hk => by
      obtain ⟨hs, hrest⟩ := Pool.holds_append.mp hpool
      obtain ⟨hs', hrest'⟩ := Pool.holds_append.mp hother
      obtain ⟨names, hafter⟩ := Blocks.exists_after_cons innermost outer s
      have hscoped' := hscoped.2
      rw [hafter] at hrest hrest' hscoped'
      rw [Stmt.codeBody, Stmt.codeBody, Frame.after_ofNames, hafter]
      exact Stmt.perform_code_eq (fun _ => List.cons_ne_nil _ _) hs hs' hscoped.1
        (Stmt.perform_codeBody_eq hrest hrest' hscoped' hk)

end

theorem Stmt.perform_topCode_eq {s : Stmt} (hpool : pool.Holds (s.constants []))
    (hother : other.Holds (s.constants [])) (hscoped : s.WellScoped []) {k k' : Code}
    (hk : perform pool (k.map Prod.fst) = perform other (k'.map Prod.fst)) :
    perform pool ((s.topCode pool k).map Prod.fst) =
      perform other ((s.topCode other k').map Prod.fst) := by
  cases s with
  | decl name pos initial stop =>
      obtain ⟨hname, hinitial⟩ := Pool.holds_append.mp hpool
      obtain ⟨hname', hinitial'⟩ := Pool.holds_append.mp hother
      have hdeclare := step_name_eq (.inl rfl) (hname (.str name) (by simp))
        (hname' (.str name) (by simp))
      refine Expr.perform_codeOrNil_eq hinitial hinitial' pos ?_
      simp only [List.map_cons, perform_cons, hdeclare, hk]
      rfl
  | expr | print | block =>
      exact Stmt.perform_code_eq (fun hdecl => absurd hdecl (by simp [Stmt.isDecl])) hpool hother
        hscoped hk

theorem Stmt.perform_foldr_topCode_eq {body : List Stmt}
    (hpool : pool.Holds (Stmt.constantsAll [] body))
    (hother : other.Holds (Stmt.constantsAll [] body)) (hscoped : Stmt.WellScopedAll [] body) :
    perform pool ((body.foldr (·.topCode pool) []).map Prod.fst) =
      perform other ((body.foldr (·.topCode other) []).map Prod.fst) := by
  induction body with
  | nil => rfl
  | cons s rest ih =>
      obtain ⟨hs, hrest⟩ := Pool.holds_append.mp hpool
      obtain ⟨hs', hrest'⟩ := Pool.holds_append.mp hother
      have hscoped' := hscoped.2
      rw [Blocks.after_nil] at hrest hrest' hscoped'
      exact Stmt.perform_topCode_eq hs hs' hscoped.1 (ih hrest hrest' hscoped')

end Trees

/-- The code of a script does the same over all pools that hold the script's constants. -/
theorem Program.perform_instrs_eq {program : Program} {pool other : Pool}
    (hpool : pool.Holds program.constants) (hother : other.Holds program.constants)
    (hscoped : program.WellScoped) :
    perform pool (program.instrs pool) = perform other (program.instrs other) :=
  Stmt.perform_foldr_topCode_eq hpool hother hscoped

end Scriptlet
