import Scriptlet.Proofs.Constants
import Scriptlet.Proofs.Grammar

/-! # Trees, frames and the code between them

What the proofs about lowered code share: code that stands in front of other code, frames that
number the names in scope, and pools that hold the constants of a tree.
-/

namespace Scriptlet

/-! ## Code in front of code -/

theorem Expr.codeOrNil_eq_append (pool : Pool) (frame : Frame) (pos : Pos) (e : Option Expr)
    (k : Code) : Expr.codeOrNil pool frame pos e k = Expr.codeOrNil pool frame pos e [] ++ k := by
  cases e with
  | none => rfl
  | some e => exact e.code_eq_append pool frame k

mutual

theorem Stmt.code_eq_append (pool : Pool) (frame : Frame) :
    ∀ (s : Stmt) (k : Code), s.code pool frame k = s.code pool frame [] ++ k
  | .expr value stop, k => by
      rw [Stmt.code, Stmt.code, Expr.code_eq_append, Expr.code_eq_append _ _ _ [_],
        List.append_assoc]
      rfl
  | .print argument opening stop, k => by
      rw [Stmt.code, Stmt.code, Expr.codeOrNil_eq_append, Expr.codeOrNil_eq_append _ _ _ _ [_],
        List.append_assoc]
      rfl
  | .decl name pos initial stop, k => by
      rw [Stmt.code, Stmt.code, Expr.codeOrNil_eq_append, Expr.codeOrNil_eq_append _ _ _ _ [_],
        List.append_assoc]
      rfl
  | .block body close, k => Stmt.codeBody_eq_append pool frame.size close frame body k

theorem Stmt.codeBody_eq_append (pool : Pool) (outer : Nat) (close : Pos) (frame : Frame) :
    ∀ (body : List Stmt) (k : Code), Stmt.codeBody pool outer close frame body k =
      Stmt.codeBody pool outer close frame body [] ++ k
  | [], k => by simp [Stmt.codeBody]
  | s :: rest, k => by
      rw [Stmt.codeBody, Stmt.codeBody, s.code_eq_append, s.code_eq_append pool frame
        (Stmt.codeBody _ _ _ _ rest []), Stmt.codeBody_eq_append pool outer close _ rest k]
      simp

end

/-- Declarations are the statements that mean something else outside all blocks. -/
def Stmt.isDecl : Stmt → Bool
  | .decl _ _ _ _ => true
  | _ => false

theorem Stmt.topCode_eq_append (pool : Pool) (s : Stmt) (k : Code) :
    s.topCode pool k = s.topCode pool [] ++ k := by
  cases s with
  | decl name pos initial stop =>
      rw [Stmt.topCode, Stmt.topCode, Expr.codeOrNil_eq_append,
        Expr.codeOrNil_eq_append _ _ _ _ [_, _], List.append_assoc]
      rfl
  | expr | print | block => exact Stmt.code_eq_append pool .empty _ k

/-- The code of statements outside all blocks stands in front of the code that follows. -/
theorem Stmt.foldr_topCode_eq_append (pool : Pool) (body : List Stmt) (k : Code) :
    body.foldr (·.topCode pool) k = body.foldr (·.topCode pool) [] ++ k := by
  induction body with
  | nil => rfl
  | cons s rest ih =>
      rw [List.foldr_cons, List.foldr_cons, ih, s.topCode_eq_append, s.topCode_eq_append pool
        (rest.foldr _ []), List.append_assoc]

/-- The instructions of a script before the end of its run. -/
def Program.instrs (program : Program) (pool : Pool) : List Instr :=
  (program.body.foldr (·.topCode pool) []).map Prod.fst

theorem Program.code_lower (program : Program) (pool : Pool) :
    (program.lower pool).code.toList = program.instrs pool ++ [.halt] := by
  rw [lower, code, Stmt.foldr_topCode_eq_append]
  simp [Chunk.ofCode, instrs]

/-! ## Frames -/

namespace Frame

/-- The frame of the names in scope, innermost first. -/
def ofNames : List String → Frame
  | [] => .empty
  | name :: outer => (ofNames outer).declare name

@[simp] theorem size_ofNames (names : List String) : (ofNames names).size = names.length := by
  induction names with
  | nil => rfl
  | cons name outer ih => simp [ofNames, declare, size, ← ih]

theorem slot?_ofNames_cons (name other : String) (outer : List String) :
    (ofNames (name :: outer)).slot? other =
      if other = name then some outer.length else (ofNames outer).slot? other := by
  simp only [slot?, ofNames, declare, size_ofNames, List.lookup_cons]
  split <;> simp_all

theorem slot?_ofNames_eq_none_iff {names : List String} {name : String} :
    (ofNames names).slot? name = none ↔ name ∉ names := by
  induction names with
  | nil => simp [slot?, ofNames, empty]
  | cons first outer ih =>
      rw [slot?_ofNames_cons]
      split <;> simp_all

theorem slot?_ofNames_lt {names : List String} {name : String} {slot : Nat}
    (hslot : (ofNames names).slot? name = some slot) : slot < names.length := by
  induction names with
  | nil => simp [slot?, ofNames, empty] at hslot
  | cons first outer ih =>
      rw [slot?_ofNames_cons] at hslot
      split at hslot
      · simp [← Option.some.inj hslot]
      · exact Nat.lt_succ_of_lt (ih hslot)

/-- In a block, a statement changes the frame as it changes the names in scope. -/
theorem after_ofNames (innermost : List String) (outer : Blocks) (s : Stmt) :
    (ofNames (Blocks.names (innermost :: outer))).after s =
      ofNames (Blocks.after (innermost :: outer) s).names := by
  cases s <;> rfl

end Frame

/-! ## Constants -/

/-- Every one of the values is a constant of the pool. -/
def Pool.Holds (pool : Pool) (values : List Value) : Prop :=
  ∀ value ∈ values, .ofValue value ∈ pool.held

theorem Pool.holds_of_addAll {pool : Pool} {values : List Value}
    (hadd : Pool.empty.addAll values = some pool) : pool.Holds values := by
  intro value hvalue
  rw [(held_of_addAll hadd compact_empty).2]
  exact Finset.mem_union_right _ (mem_standing_iff.mpr hvalue)

theorem Pool.holds_append {pool : Pool} {first second : List Value} :
    pool.Holds (first ++ second) ↔ pool.Holds first ∧ pool.Holds second :=
  List.forall_mem_append

/-- The name of a global that is used is among the constants. -/
theorem Pool.Holds.mem_of_not_mem {pool : Pool} {names : List String} {name : String}
    (hholds : pool.Holds (Blocks.pooledName names name)) (hname : name ∉ names) :
    .ofValue (.str name) ∈ pool.held := by
  rw [Blocks.pooledName, if_neg hname] at hholds
  exact hholds _ List.mem_cons_self

/-- A name that does not occur in an expression makes no difference to its constants. -/
theorem Expr.constants_cons {name : String} {e : Expr} (hname : name ∉ e.names)
    (names : List String) : e.constants (name :: names) = e.constants names := by
  have hpooled : ∀ other, other ≠ name →
      Blocks.pooledName (name :: names) other = Blocks.pooledName names other := by
    intro other hother
    simp [Blocks.pooledName, hother]
  induction e with
  | literal => rfl
  | var other => exact hpooled other fun h => hname (by simp [Expr.names, h])
  | assign other value ih =>
      simp only [Expr.names, List.mem_cons, not_or] at hname
      rw [Expr.constants, Expr.constants, hpooled other (Ne.symm hname.1), ih hname.2]
  | group inner _ ih => exact ih hname
  | unary _ operand ih => exact ih hname
  | binary _ left right ihl ihr =>
      simp only [Expr.names, List.mem_append, not_or] at hname
      rw [Expr.constants, Expr.constants, ihl hname.1, ihr hname.2]

theorem Expr.constantsOptional_cons {name : String} {e : Option Expr}
    (hname : name ∉ Expr.namesOptional e) (names : List String) :
    Expr.constantsOptional (name :: names) e = Expr.constantsOptional names e := by
  cases e with
  | none => rfl
  | some e => exact constants_cons hname names

/-- A block variable is not named in its own initial value, so it makes no difference whether it is
in scope there. -/
theorem Stmt.constants_decl {name : String} {pos stop : Pos} {initial : Option Expr}
    {innermost : List String} {outer : Blocks}
    (hscoped : (Stmt.decl name pos initial stop).WellScoped (innermost :: outer)) :
    (Stmt.decl name pos initial stop).constants (innermost :: outer) =
      Expr.constantsOptional (Blocks.names (innermost :: outer)) initial := by
  rw [← Expr.constantsOptional_cons hscoped.2]
  rfl

end Scriptlet
