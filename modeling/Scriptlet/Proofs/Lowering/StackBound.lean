import Scriptlet.Proofs.Lowering.StackDepth
import Scriptlet.Proofs.Reading.Locals
import Scriptlet.Proofs.Unambiguity

/-! # Room on the stack

How deep the stack gets can be read off the code, too, and for the code of a script off its tree:
the values on the stack are those of the variables in scope and, above them, of the operands that
wait. Every level of nesting leaves at most one operand waiting, so the limit on nesting limits the
depth of the stack.
-/

namespace Scriptlet

/-- The greatest depth of the stack while instructions are executed in order from `depth`, up to the
first that must not be executed. -/
def Instr.peakDepth (pool : Pool) (depth : Nat) : List Instr → Nat
  | [] => depth
  | instr :: rest => max depth ((instr.depthAfter? pool depth).elim depth (peakDepth pool · rest))

namespace Instr

variable {pool : Pool} {depth depth' bound : Nat} {instr : Instr} {rest : List Instr}

theorem peakDepth_cons_le (hnext : instr.depthAfter? pool depth = some depth')
    (hdepth : depth ≤ bound) (hrest : peakDepth pool depth' rest ≤ bound) :
    peakDepth pool depth (instr :: rest) ≤ bound := by
  rw [peakDepth, hnext]
  exact Nat.max_le.mpr ⟨hdepth, hrest⟩

theorem le_peakDepth (pool : Pool) (depth : Nat) (instrs : List Instr) :
    depth ≤ peakDepth pool depth instrs := by
  cases instrs with
  | nil => exact Nat.le_refl _
  | cons => exact Nat.le_max_left _ _

/-- Wherever checked code gets to, the stack is at most as deep as at its peak. -/
theorem le_peakDepth_of_take {instrs : List Instr} {offset : Nat}
    (hdepth : depthAfterAll? pool depth (instrs.take offset) = some depth') :
    depth' ≤ peakDepth pool depth instrs := by
  induction instrs generalizing depth offset with
  | nil =>
      rw [List.take_nil] at hdepth
      obtain rfl := Option.some.inj hdepth
      exact Nat.le_refl _
  | cons instr rest ih =>
      cases offset with
      | zero =>
          obtain rfl := Option.some.inj hdepth
          exact le_peakDepth pool _ _
      | succ offset =>
          obtain ⟨next, hnext, hrest⟩ := Option.bind_eq_some_iff.mp hdepth
          rw [peakDepth, hnext]
          exact (ih hrest).trans (Nat.le_max_right _ _)

theorem peakDepth_replicate_pop_le {count : Nat} (hdepth : count + depth ≤ bound)
    (hrest : peakDepth pool depth rest ≤ bound) :
    peakDepth pool (count + depth) (List.replicate count .pop ++ rest) ≤ bound := by
  induction count with
  | zero => simpa using hrest
  | succ count ih =>
      have hpop : Instr.pop.depthAfter? pool (count + 1 + depth) = some (count + depth) := by
        simp only [depthAfter?, Option.ite_none_right_eq_some, Option.some.injEq]
        omega
      exact peakDepth_cons_le hpop hdepth (ih (by omega))

end Instr

/-! ## Runs within the limit -/

namespace Machine

variable {chunk : Chunk} {instrs : List Instr} {final : Nat} {m : Machine}
  (hcode : chunk.code.toList = instrs ++ [.halt])
  (hdepth : Instr.depthAfterAll? chunk.pool 0 instrs = some final)

include hcode hdepth

/-- No instruction changes how deep the stack may get. -/
theorem Visits.limit_eq {before : Machine} {offset : Nat} (hvisits : Visits chunk m offset before) :
    before.stack.limit = m.stack.limit := by
  induction hvisits with
  | start => rfl
  | @step offset instr before after hbefore hinstr hhalt hstep ih =>
      have hget := getElem?_of_code hcode hinstr hhalt
      obtain ⟨depth, depth', hprefix, hnext, _⟩ := Instr.exists_depthAfter? hdepth hget
      rw [hbefore.depth_eq hcode hdepth] at hprefix
      obtain rfl := Option.some.inj hprefix
      have hmoves := moves_step hnext before rfl
      rw [hstep] at hmoves
      exact hmoves.2.trans ih

/-- Checked code whose peak is within the limit does not exhaust the stack. -/
theorem error_ne_stackOverflow (hroom : Instr.peakDepth chunk.pool 0 instrs ≤ m.stack.limit)
    {fault : Fault} {after : Machine} (hrun : m.run chunk = (.error fault, after)) (limit : Nat) :
    fault.error ≠ .stackOverflow limit := by
  intro herror
  have hends := run_ends chunk m
  rw [hrun] at hends
  cases hends with
  | @failure offset instr before _ e hbefore hinstr hstep =>
      have hhalt : instr ≠ .halt := by
        rintro rfl
        contradiction
      have hget := getElem?_of_code hcode hinstr hhalt
      obtain ⟨depth, depth', hprefix, hnext, hprefix'⟩ := Instr.exists_depthAfter? hdepth hget
      have hbelow := Instr.le_peakDepth_of_take hprefix
      have hbelow' := Instr.le_peakDepth_of_take hprefix'
      rw [hbefore.depth_eq hcode hdepth] at hprefix
      obtain rfl := Option.some.inj hprefix
      have hmoves := moves_step hnext before rfl
      rw [hstep] at hmoves
      have hbeyond := hmoves.2 limit herror
      rw [hbefore.limit_eq hcode hdepth] at hbeyond
      omega
  | outOfCode => contradiction

end Machine

/-! ## The peak of the code of a script -/

section Lowered

variable {pool : Pool} {names : List String} {depth bound : Nat}

theorem BinaryOp.peakDepth_instrs_le (op : BinaryOp) {rest : List Instr}
    (hdepth : depth + 2 ≤ bound) (hrest : Instr.peakDepth pool (depth + 1) rest ≤ bound) :
    Instr.peakDepth pool (depth + 2) (op.instrs ++ rest) ≤ bound := by
  have hbinary : ∀ {instr : Instr}, instr.depthAfter? pool (depth + 2) = some (depth + 1) →
      Instr.peakDepth pool (depth + 2) (instr :: rest) ≤ bound :=
    fun hnext => Instr.peakDepth_cons_le hnext hdepth hrest
  have hnegated : ∀ {instr : Instr}, instr.depthAfter? pool (depth + 2) = some (depth + 1) →
      Instr.peakDepth pool (depth + 2) (instr :: .not :: rest) ≤ bound :=
    fun hnext => Instr.peakDepth_cons_le hnext hdepth
      (Instr.peakDepth_cons_le (by simp [Instr.depthAfter?]) (by omega) hrest)
  cases op with
  | notEqual | greaterEqual | lessEqual => exact hnegated (by simp [Instr.depthAfter?])
  | _ => exact hbinary (by simp [Instr.depthAfter?])

/-- While an expression is evaluated, each of its levels leaves at most one operand waiting. -/
theorem Expr.peakDepth_code_le {e : Expr} (hholds : pool.Holds (e.constants names))
    (hdepth : names.length ≤ depth) (hbound : depth + e.nesting + 1 ≤ bound) {k : Code}
    (hk : Instr.peakDepth pool (depth + 1) (k.map Prod.fst) ≤ bound) :
    Instr.peakDepth pool depth ((e.code pool (.ofNames names) k).map Prod.fst) ≤ bound := by
  induction e generalizing depth k with
  | literal value pos =>
      exact Instr.peakDepth_cons_le (Pool.depthAfter?_load hholds) (by omega) hk
  | var name pos =>
      exact Instr.peakDepth_cons_le (Pool.depthAfter?_read hholds hdepth) (by omega) hk
  | assign name value ih =>
      obtain ⟨hname, hvalue⟩ := Pool.holds_append.mp hholds
      rw [Expr.nesting] at hbound
      apply ih hvalue hdepth (by omega)
      exact Instr.peakDepth_cons_le (Pool.depthAfter?_write hname hdepth) (by omega) hk
  | group inner close ih =>
      rw [Expr.nesting] at hbound
      exact ih hholds hdepth (by omega) hk
  | unary op operand ih =>
      rw [Expr.nesting] at hbound
      apply ih hholds hdepth (by omega)
      refine Instr.peakDepth_cons_le ?_ (by omega) hk
      cases op <;> simp [UnaryOp.instr, Instr.depthAfter?]
  | binary op left right ihl ihr =>
      -- The left operand waits while the right one, a level deeper, is evaluated.
      obtain ⟨hleft, hright⟩ := Pool.holds_append.mp hholds
      rw [Expr.nesting] at hbound
      apply ihl hleft hdepth (by omega)
      apply ihr hright (Nat.le_succ_of_le hdepth) (by omega)
      rw [List.map_append, List.map_map]
      simpa [Function.comp_def] using op.peakDepth_instrs_le (by omega) hk

theorem Expr.peakDepth_codeOrNil_le {e : Option Expr}
    (hholds : pool.Holds (Expr.constantsOptional names e)) (hdepth : names.length ≤ depth)
    (hbound : depth + max 1 (Expr.levels e) ≤ bound) (pos : Pos) {k : Code}
    (hk : Instr.peakDepth pool (depth + 1) (k.map Prod.fst) ≤ bound) :
    Instr.peakDepth pool depth ((Expr.codeOrNil pool (.ofNames names) pos e k).map Prod.fst) ≤
      bound := by
  cases e with
  | none => exact Instr.peakDepth_cons_le rfl (by omega) hk
  | some e =>
      rw [Expr.levels] at hbound
      exact peakDepth_code_le hholds hdepth (by omega) hk

end Lowered

mutual

theorem Stmt.peakDepth_code_le {pool : Pool} {blocks : Blocks} {bound : Nat} : ∀ {s : Stmt}
    {k : Code}, (s.isDecl = true → blocks ≠ []) → pool.Holds (s.constants blocks) →
    s.WellScoped blocks → s.peak blocks + max 1 s.nesting ≤ bound →
    Instr.peakDepth pool (blocks.after s).names.length (k.map Prod.fst) ≤ bound →
    Instr.peakDepth pool blocks.names.length
      ((s.code pool (.ofNames blocks.names) k).map Prod.fst) ≤ bound
  | .expr value stop, k, _, hholds, _, hbound, hk => by
      rw [Stmt.peak, Stmt.nesting, Expr.levels] at hbound
      apply Expr.peakDepth_code_le hholds (Nat.le_refl _) (by omega)
      exact Instr.peakDepth_cons_le rfl (by omega) hk
  | .print argument opening stop, k, _, hholds, _, hbound, hk => by
      rw [Stmt.peak, Stmt.nesting] at hbound
      apply Expr.peakDepth_codeOrNil_le hholds (Nat.le_refl _) hbound
      exact Instr.peakDepth_cons_le rfl (by omega) hk
  | .decl name pos initial stop, k, hblock, hholds, hscoped, hbound, hk => by
      obtain ⟨innermost, outer, rfl⟩ := List.exists_cons_of_ne_nil (hblock rfl)
      rw [Stmt.constants_decl hscoped] at hholds
      have hpeak : (Stmt.decl name pos initial stop).peak (innermost :: outer) =
          (Blocks.names (innermost :: outer)).length + 1 := by
        simp [Stmt.peak, Blocks.declare, Blocks.names]
      rw [hpeak, Stmt.nesting] at hbound
      apply Expr.peakDepth_codeOrNil_le hholds (Nat.le_refl _) (by omega)
      rw [Frame.size_ofNames]
      exact Instr.peakDepth_cons_le (if_pos rfl) (by omega) hk
  | .block inner close, k, _, hholds, hscoped, hbound, hk => by
      rw [Stmt.peak, Stmt.nesting] at hbound
      rw [Stmt.code, Frame.size_ofNames]
      exact Stmt.peakDepth_codeBody_le hholds hscoped (by omega) hk

theorem Stmt.peakDepth_codeBody_le {pool : Pool} {innermost : List String} {outer : Blocks}
    {close : Pos} {bound : Nat} : ∀ {body : List Stmt} {k : Code},
    pool.Holds (Stmt.constantsAll (innermost :: outer) body) →
    Stmt.WellScopedAll (innermost :: outer) body →
    Stmt.peakAll (innermost :: outer) body + max 1 (Stmt.nestingAll body) ≤ bound →
    Instr.peakDepth pool outer.names.length (k.map Prod.fst) ≤ bound →
    Instr.peakDepth pool (Blocks.names (innermost :: outer)).length
      ((Stmt.codeBody pool outer.names.length close
        (.ofNames (Blocks.names (innermost :: outer))) body k).map Prod.fst) ≤ bound
  | [], k, _, _, hbound, hk => by
      have hnames : (Blocks.names (innermost :: outer)).length =
          innermost.length + outer.names.length := List.length_append
      rw [Stmt.peakAll, hnames] at hbound
      rw [Stmt.codeBody, Frame.size_ofNames, List.map_append, List.map_replicate, hnames,
        Nat.add_sub_cancel]
      exact Instr.peakDepth_replicate_pop_le (by omega) hk
  | s :: rest, k, hholds, hscoped, hbound, hk => by
      obtain ⟨hs, hrest⟩ := Pool.holds_append.mp hholds
      obtain ⟨names, hafter⟩ := Blocks.exists_after_cons innermost outer s
      rw [Stmt.peakAll, Stmt.nestingAll] at hbound
      rw [Stmt.codeBody]
      apply Stmt.peakDepth_code_le (fun _ => List.cons_ne_nil _ _) hs hscoped.1 (by omega)
      have hscoped' := hscoped.2
      rw [Frame.after_ofNames, hafter]
      rw [hafter] at hrest hscoped' hbound
      exact Stmt.peakDepth_codeBody_le hrest hscoped' (by omega) hk

end

theorem Stmt.peakDepth_topCode_le {pool : Pool} {s : Stmt} {bound : Nat}
    (hholds : pool.Holds (s.constants [])) (hscoped : s.WellScoped [])
    (hbound : s.peak [] + max 1 s.nesting ≤ bound) {k : Code}
    (hk : Instr.peakDepth pool 0 (k.map Prod.fst) ≤ bound) :
    Instr.peakDepth pool 0 ((s.topCode pool k).map Prod.fst) ≤ bound := by
  cases s with
  | decl name pos initial stop =>
      obtain ⟨hname, hvalue⟩ := Pool.holds_append.mp hholds
      have hinitial : pool.Holds (Expr.constantsOptional [] initial) := hvalue
      have hmem : .ofValue (.str name) ∈ pool.held := hname _ (by simp)
      have hdeclare : (Instr.declGlobal (pool.index (.str name))).depthAfter? pool 1 = some 1 :=
        if_pos ⟨Pool.isName_index hmem, Nat.le_refl 1⟩
      have hlevels : 0 + max 1 (Expr.levels initial) ≤ bound := by
        rw [Stmt.nesting] at hbound
        omega
      apply Expr.peakDepth_codeOrNil_le hinitial (Nat.le_refl 0) hlevels pos
      apply Instr.peakDepth_cons_le hdeclare (by omega)
      exact Instr.peakDepth_cons_le rfl (by omega) hk
  | expr | print | block =>
      exact Stmt.peakDepth_code_le (fun hdecl => absurd hdecl (by simp [Stmt.isDecl])) hholds
        hscoped hbound hk

theorem Stmt.peakDepth_foldr_topCode_le {pool : Pool} {body : List Stmt} {bound : Nat}
    (hholds : pool.Holds (Stmt.constantsAll [] body)) (hscoped : Stmt.WellScopedAll [] body)
    (hbound : Stmt.peakAll [] body + max 1 (Stmt.nestingAll body) ≤ bound) :
    Instr.peakDepth pool 0 ((body.foldr (·.topCode pool) []).map Prod.fst) ≤ bound := by
  induction body with
  | nil => exact Nat.zero_le _
  | cons s rest ih =>
      obtain ⟨hs, hrest⟩ := Pool.holds_append.mp hholds
      have hscoped' := hscoped.2
      rw [Stmt.peakAll, Stmt.nestingAll, Blocks.after_nil] at hbound
      rw [Blocks.after_nil] at hrest hscoped'
      exact Stmt.peakDepth_topCode_le hs hscoped.1 (by omega) (ih hrest hscoped' (by omega))

/-- While a script runs, the stack holds at most the variables in scope and an operand for each
level of nesting. -/
theorem Program.peakDepth_instrs_le {program : Program} {pool : Pool}
    (hholds : pool.Holds program.constants) (hscoped : program.WellScoped) :
    Instr.peakDepth pool 0 (program.instrs pool) ≤ program.peak + max 1 program.nesting :=
  Stmt.peakDepth_foldr_topCode_le hholds hscoped (Nat.le_refl _)

/-- A script that keeps the limits does not exhaust a stack with room for its variables and for as
many operands as there may be levels of nesting. -/
theorem Program.error_ne_stackOverflow {program : Program} {pool : Pool}
    (hadmissible : program.Admissible) (hholds : pool.Holds program.constants) {m : Machine}
    (hroom : program.peak + Parser.maxNesting ≤ m.stack.limit) {fault : Fault} {after : Machine}
    (hrun : m.run (program.lower pool) = (.error fault, after)) (limit : Nat) :
    fault.error ≠ .stackOverflow limit := by
  have hpeak := program.peakDepth_instrs_le hholds hadmissible.wellScoped
  have hnesting := hadmissible.nesting
  have hpositive : 1 ≤ Parser.maxNesting := by decide
  refine Machine.error_ne_stackOverflow (program.code_lower pool)
    (program.depthAfterAll?_instrs hholds hadmissible.wellScoped) ?_ hrun limit
  change Instr.peakDepth pool 0 (program.instrs pool) ≤ m.stack.limit
  omega

/-- The limit on nesting bounds the stack. A script that is compiled does not exhaust a stack with
room for 256 operands above the greatest number of block variables that are known at once while it
is read; a variable is known from its declaration to the end of its block, so the states between
statements show that number. A script that declares no variable in a block does not exhaust a stack
of the default size. -/
theorem run_ne_stackOverflow {recovery : Bool} {source : String} {chunk : Chunk}
    (hcompile : compile recovery source = .ok chunk) :
    (∃ most, IsGreatest {count | ∃ levels stops p,
          Parser.Visits recovery (Token.ofSource source).toList levels stops p ∧
            p.scope.locals.length = count} most ∧
        ∀ m : Machine, most + 256 ≤ m.stack.limit →
          ∀ limit pos, (m.run chunk).1 ≠ .error ⟨.stackOverflow limit, pos⟩) ∧
      ∀ program, Program.Derives (Token.ofSource source).toList program →
        (∀ s ∈ program.body, s.isDecl = false → s.decls = 0) →
        ∀ m : Machine, Stack.defaultLimit ≤ m.stack.limit →
          ∀ limit pos, (m.run chunk).1 ≠ .error ⟨.stackOverflow limit, pos⟩ := by
  obtain ⟨program, pool, hderives, hadmissible, hpool, rfl⟩ := compile_eq_ok_iff.mp hcompile
  have hsafe : ∀ m : Machine, program.peak + 256 ≤ m.stack.limit →
      ∀ limit pos, (m.run (program.lower pool)).1 ≠ .error ⟨.stackOverflow limit, pos⟩ := by
    intro m hroom limit pos hrun
    exact Program.error_ne_stackOverflow hadmissible (Pool.holds_of_addAll hpool) hroom
      (Prod.ext hrun rfl) limit rfl
  constructor
  · exact ⟨program.peak, Parser.isGreatest_peak recovery hderives hadmissible hpool, hsafe⟩
  · intro other hother hblocks m hroom
    obtain rfl := hderives.unique hother
    apply hsafe m
    rw [Program.peak_eq_zero hblocks]
    exact hroom

/-- A global, a block that declares nothing and an expression with operands that wait. -/
def Program.openScript : String := "decl g = 1; \x7b print(g - (g - (g - 1))); \x7d"

/-- Blocks inside one another, of whose four variables three are known at once. -/
def Program.innerScript : String :=
  "\x7b decl a = 1; \x7b decl b = a; decl c = a - b; print(a - (b - c)); \x7d decl d = a; \x7d"

theorem run_ne_stackOverflow_blocks :
    (∃ chunk, compile true Program.openScript = .ok chunk ∧
      ∀ limit pos, ((Machine.init 256 none).run chunk).1 ≠ .error ⟨.stackOverflow limit, pos⟩) ∧
    ∃ chunk, compile true Program.innerScript = .ok chunk ∧
      IsGreatest {count | ∃ levels stops p,
        Parser.Visits true (Token.ofSource Program.innerScript).toList levels stops p ∧
          p.scope.locals.length = count} 3 ∧
      ∀ limit pos,
        ((Machine.init (3 + 256) none).run chunk).1 ≠ .error ⟨.stackOverflow limit, pos⟩ := by
  constructor
  · obtain ⟨chunk, hcompile⟩ :=
      exists_of_isOk_compile (show (compile true Program.openScript).isOk by decide +kernel)
    obtain ⟨program, hderives, hblocks⟩ := exists_derives_of_read true Program.openScript
      (fun program => program.body.all fun s => s.isDecl || s.decls == 0) (by decide +kernel)
    refine ⟨chunk, hcompile, ?_⟩
    apply (run_ne_stackOverflow hcompile).2 program hderives ?_ _ (Nat.le_refl _)
    intro s hs hdecl
    simpa [hdecl] using List.all_eq_true.mp hblocks s hs
  · obtain ⟨chunk, hcompile⟩ :=
      exists_of_isOk_compile (show (compile true Program.innerScript).isOk by decide +kernel)
    obtain ⟨other, hother, hpeak⟩ := exists_derives_of_read true Program.innerScript
      (fun program => program.peak == 3) (by decide +kernel)
    obtain ⟨program, pool, hderives, hadmissible, hpool, rfl⟩ := compile_eq_ok_iff.mp hcompile
    obtain rfl := hderives.unique hother
    obtain ⟨most, hmost, hsafe⟩ := (run_ne_stackOverflow hcompile).1
    obtain rfl : most = 3 :=
      (hmost.unique (Parser.isGreatest_peak true hderives hadmissible hpool)).trans
        (eq_of_beq hpeak)
    exact ⟨_, hcompile, hmost, hsafe _ (Nat.le_refl _)⟩

end Scriptlet
