import Scriptlet.Proofs.Lowering.StackDepth

/-! # Well-formed chunks

What a machine relies on when it runs a chunk, and that compiled chunks provide it: operands that
denote something, block variables in their places, a single `halt` at the end, and therefore runs
that can fail only for reasons in the script.
-/

namespace Scriptlet

/-- The index of the constant that names a global. -/
def Instr.name? : Instr → Option Nat
  | .declGlobal index | .setGlobal index | .getGlobal index => some index
  | _ => none

structure Chunk.WellFormed (chunk : Chunk) : Prop where
  /-- Every constant operand is in range. -/
  constant_lt : ∀ instr ∈ chunk.code, ∀ index, instr.constant? = some index →
    index < chunk.pool.size
  /-- Every operand that names a global denotes a string. -/
  exists_name : ∀ instr ∈ chunk.code, ∀ index, instr.name? = some index →
    ∃ name, chunk.pool.get? index = some (.str name)
  /-- There is one `halt`, and it is the last instruction. -/
  exists_halt : ∃ instrs, chunk.code.toList = instrs ++ [.halt] ∧ Instr.halt ∉ instrs
  /-- A block variable is declared while its value is on top and has its slot as place. -/
  depth_declLocal : ∀ m before offset slot, Machine.Visits chunk m offset before →
    chunk.code[offset]? = some (.declLocal slot) → before.stack.depth = slot + 1
  /-- Slots that are read or written are below the top. -/
  slot_lt : ∀ m before offset slot, Machine.Visits chunk m offset before →
    chunk.code[offset]? = some (.getLocal slot) ∨ chunk.code[offset]? = some (.setLocal slot) →
    slot < before.stack.depth
  /-- No run underflows the stack or fails internally. -/
  error_ne : ∀ m fault after, Machine.run chunk m = (.error fault, after) →
    fault.error ≠ .stackUnderflow ∧ ∀ defect, fault.error ≠ .internal defect
  /-- A run that succeeds leaves the stack empty. -/
  stack_eq : ∀ m after, Machine.run chunk m = (.ok (), after) → after.stack.values = #[]

theorem Pool.lt_size_of_isName {pool : Pool} {index : Nat} (hname : pool.isName index = true) :
    index < pool.size := by
  obtain ⟨name, hget⟩ := exists_of_isName hname
  exact lt_size_of_get? hget

namespace Instr

variable {pool : Pool} {depth depth' index : Nat} {instr : Instr}

theorem isName_of_depthAfter? (hdepth : instr.depthAfter? pool depth = some depth')
    (hindex : instr.name? = some index) : pool.isName index = true := by
  cases instr with
  | declGlobal | setGlobal =>
      obtain rfl := Option.some.inj hindex
      exact (Option.ite_none_right_eq_some.mp hdepth).1.1
  | getGlobal =>
      obtain rfl := Option.some.inj hindex
      exact (Option.ite_none_right_eq_some.mp hdepth).1
  | _ => contradiction

theorem lt_size_of_depthAfter? (hdepth : instr.depthAfter? pool depth = some depth')
    (hindex : instr.constant? = some index) : index < pool.size := by
  cases instr with
  | constant =>
      obtain rfl := Option.some.inj hindex
      exact (Option.ite_none_right_eq_some.mp hdepth).1
  | declGlobal | setGlobal | getGlobal =>
      exact Pool.lt_size_of_isName (isName_of_depthAfter? hdepth hindex)
  | _ => contradiction

end Instr

section Checked

variable {chunk : Chunk} {instrs : List Instr} {final : Nat}
  (hcode : chunk.code.toList = instrs ++ [.halt])
  (hdepth : Instr.depthAfterAll? chunk.pool 0 instrs = some final)

include hcode

theorem Machine.Visits.le_length {m before : Machine} {offset : Nat}
    (hbefore : Visits chunk m offset before) : offset ≤ instrs.length := by
  cases hbefore with
  | start => exact Nat.zero_le _
  | step _ hinstr hhalt _ =>
      have hget := getElem?_of_code hcode hinstr hhalt
      exact (List.getElem?_eq_some_iff.mp hget).1

include hdepth

/-- Wherever a run gets to, the instruction passes the check at the depth that the stack has. -/
theorem Machine.Visits.exists_depthAfter? {m before : Machine} {offset : Nat} {instr : Instr}
    (hbefore : Visits chunk m offset before) (hinstr : chunk.code[offset]? = some instr)
    (hhalt : instr ≠ .halt) :
    ∃ depth', instr.depthAfter? chunk.pool before.stack.depth = some depth' := by
  have hget := getElem?_of_code hcode hinstr hhalt
  obtain ⟨depth, depth', hdepth', hnext, _⟩ := Instr.exists_depthAfter? hdepth hget
  rw [hbefore.depth_eq hcode hdepth] at hdepth'
  exact ⟨depth', Option.some.inj hdepth' ▸ hnext⟩

theorem Chunk.exists_depthAfter? {instr : Instr} (hinstr : instr ∈ chunk.code)
    (hhalt : instr ≠ .halt) :
    ∃ depth depth', instr.depthAfter? chunk.pool depth = some depth' := by
  rw [← Array.mem_toList_iff, hcode, List.mem_append, List.mem_singleton,
    or_iff_left hhalt] at hinstr
  obtain ⟨offset, hoffset⟩ := List.getElem?_of_mem hinstr
  obtain ⟨depth, depth', _, hnext, _⟩ := Instr.exists_depthAfter? hdepth hoffset
  exact ⟨depth, depth', hnext⟩

theorem Machine.error_not_isDefect {m : Machine} {fault : Fault} {after : Machine}
    (hrun : m.run chunk = (.error fault, after)) : ¬fault.error.IsDefect := by
  have hends := run_ends chunk m
  rw [hrun] at hends
  cases hends with
  | @failure offset instr before _ e hbefore hinstr hstep =>
      have hhalt : instr ≠ .halt := by
        rintro rfl
        contradiction
      obtain ⟨depth', hnext⟩ := hbefore.exists_depthAfter? hcode hdepth hinstr hhalt
      have hmoves := moves_step hnext before rfl
      rw [hstep] at hmoves
      exact hmoves.1
  | outOfCode hbefore hend =>
      -- A run does not get past the `halt` behind the checked instructions.
      have hle := hbefore.le_length hcode
      rw [← Array.getElem?_toList, hcode, List.getElem?_eq_none_iff, List.length_append] at hend
      simp at hend
      omega

theorem Machine.depth_of_run_eq_ok {m after : Machine} (hrun : m.run chunk = (.ok (), after)) :
    after.stack.depth = final := by
  have hends := run_ends chunk m
  rw [hrun] at hends
  cases hends with
  | @halt offset _ hbefore hinstr =>
      have hlast : instrs.length ≤ offset := by
        by_contra hlt
        rw [← Array.getElem?_toList, hcode,
          List.getElem?_append_left (Nat.lt_of_not_le hlt)] at hinstr
        exact Instr.halt_not_mem hdepth (List.mem_of_getElem? hinstr)
      have hafter := hbefore.depth_eq hcode hdepth
      rw [List.take_of_length_le hlast, hdepth] at hafter
      exact (Option.some.inj hafter).symm

end Checked

/-- Code that passes the check from an empty stack to an empty stack is well formed. -/
theorem Chunk.wellFormed_of_checked {chunk : Chunk} {instrs : List Instr}
    (hcode : chunk.code.toList = instrs ++ [.halt])
    (hdepth : Instr.depthAfterAll? chunk.pool 0 instrs = some 0) : chunk.WellFormed where
  constant_lt instr hinstr index hindex := by
    have hhalt : instr ≠ .halt := by
      rintro rfl
      contradiction
    obtain ⟨_, _, hnext⟩ := exists_depthAfter? hcode hdepth hinstr hhalt
    exact Instr.lt_size_of_depthAfter? hnext hindex
  exists_name instr hinstr index hindex := by
    have hhalt : instr ≠ .halt := by
      rintro rfl
      contradiction
    obtain ⟨_, _, hnext⟩ := exists_depthAfter? hcode hdepth hinstr hhalt
    exact Pool.exists_of_isName (Instr.isName_of_depthAfter? hnext hindex)
  exists_halt := ⟨instrs, hcode, Instr.halt_not_mem hdepth⟩
  depth_declLocal m before offset slot hbefore hinstr := by
    obtain ⟨_, hnext⟩ := hbefore.exists_depthAfter? hcode hdepth hinstr (by simp)
    exact (Option.ite_none_right_eq_some.mp hnext).1
  slot_lt m before offset slot hbefore hinstr := by
    rcases hinstr with hinstr | hinstr
    all_goals
      obtain ⟨_, hnext⟩ := hbefore.exists_depthAfter? hcode hdepth hinstr (by simp)
      exact (Option.ite_none_right_eq_some.mp hnext).1
  error_ne m fault after hrun := by
    have hdefect := Machine.error_not_isDefect hcode hdepth hrun
    constructor
    · intro herror
      exact hdefect (herror ▸ trivial)
    · intro defect herror
      exact hdefect (herror ▸ trivial)
  stack_eq m after hrun :=
    Array.eq_empty_of_size_eq_zero (Machine.depth_of_run_eq_ok hcode hdepth hrun)

/-- Compiled chunks are well formed. -/
theorem wellFormed_of_compile {recovery : Bool} {source : String} {chunk : Chunk}
    (hcompile : compile recovery source = .ok chunk) : chunk.WellFormed := by
  obtain ⟨program, pool, _, hadmissible, hpool, rfl⟩ := compile_eq_ok_iff.mp hcompile
  exact Chunk.wellFormed_of_checked (program.code_lower pool)
    (program.depthAfterAll?_instrs (Pool.holds_of_addAll hpool) hadmissible.wellScoped)

/-- The code of a script with globals, nested blocks and an assignment inside a declaration. -/
theorem wellFormed_of_compile_blocks : ∃ chunk,
    compile true "decl g = 1\n\x7b decl x = g; \x7b decl y = x = 2; print(y + g); \x7d \x7d" =
      .ok chunk ∧ chunk.WellFormed := by
  refine (exists_of_isOk_compile ?_).imp fun chunk hcompile =>
    ⟨hcompile, wellFormed_of_compile hcompile⟩
  decide +kernel

end Scriptlet
