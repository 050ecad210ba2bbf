import Mathlib.Tactic.Common
import Scriptlet.Machine.Run

/-! # Runs of straight code

Code has no jumps, so a run performs its instructions in order, up to the first that fails or that
ends the run. Two views of this: what a list of instructions does as a whole, and in which states a
run gets to which instruction.
-/

namespace Scriptlet.Machine

/-- Executes instructions in order, up to the first that fails. -/
def perform (pool : Pool) (instrs : List Instr) : Step Unit :=
  instrs.forM (step pool)

@[simp] theorem perform_nil (pool : Pool) : perform pool [] = pure () := rfl

@[simp] theorem perform_cons (pool : Pool) (instr : Instr) (rest : List Instr) :
    perform pool (instr :: rest) = step pool instr >>= fun _ => perform pool rest := rfl

@[simp] theorem perform_singleton (pool : Pool) (instr : Instr) :
    perform pool [instr] = step pool instr :=
  bind_pure_unit

theorem perform_append (pool : Pool) (first second : List Instr) :
    perform pool (first ++ second) = perform pool first >>= fun _ => perform pool second :=
  List.forM_append

theorem execute_cons (chunk : Chunk) (offset : Nat) {instr : Instr} (hhalt : instr ≠ .halt)
    (rest : List Instr) (m : Machine) :
    execute chunk offset (instr :: rest) m =
      match step chunk.pool instr m with
      | .ok _ m => execute chunk (offset + 1) rest m
      | .error e m => (.error ⟨e, chunk.posAt offset⟩, m) := by
  cases instr with
  | halt => contradiction
  | _ => rfl

/-- Instructions that do not end the run are performed before what follows them. -/
theorem execute_append (chunk : Chunk) {instrs : List Instr} (hhalt : Instr.halt ∉ instrs)
    (offset : Nat) (rest : List Instr) (m : Machine) :
    match perform chunk.pool instrs m with
    | .ok _ m' => execute chunk offset (instrs ++ rest) m =
        execute chunk (offset + instrs.length) rest m'
    | .error e m' => ∃ pos, execute chunk offset (instrs ++ rest) m = (.error ⟨e, pos⟩, m') := by
  induction instrs generalizing offset m with
  | nil => rfl
  | cons instr instrs ih =>
      obtain ⟨hfirst, hrest⟩ := List.ne_and_not_mem_of_not_mem_cons hhalt
      rw [List.cons_append, execute_cons chunk offset hfirst.symm, perform_cons]
      simp only [bind, EStateM.bind]
      cases hstep : step chunk.pool instr m with
      | error e m' => exact ⟨_, rfl⟩
      | ok _ m' =>
          -- The offset decides nothing but the position of a fault.
          rw [List.length_cons, Nat.add_comm instrs.length, ← Nat.add_assoc]
          exact ih hrest (offset + 1) m'

/-- A run of code that ends in its only `halt` performs what stands before it. -/
theorem run_eq (chunk : Chunk) {instrs : List Instr} (hcode : chunk.code.toList = instrs ++ [.halt])
    (hhalt : Instr.halt ∉ instrs) (m : Machine) :
    match perform chunk.pool instrs { m with stack := m.stack.clear } with
    | .ok _ m' => m.run chunk = (.ok (), m')
    | .error e m' => ∃ pos, m.run chunk = (.error ⟨e, pos⟩, m') := by
  have hexecute := execute_append chunk hhalt 0 [.halt] { m with stack := m.stack.clear }
  rw [← hcode] at hexecute
  exact hexecute

/-! ## The states of a run -/

/-- A run of the chunk from `m` gets to the instruction at an offset, in some state. -/
inductive Visits (chunk : Chunk) (m : Machine) : Nat → Machine → Prop
  | start : Visits chunk m 0 { m with stack := m.stack.clear }
  | step {offset : Nat} {instr : Instr} {before after : Machine}
      (hbefore : Visits chunk m offset before) (hinstr : chunk.code[offset]? = some instr)
      (hhalt : instr ≠ .halt) (hstep : Machine.step chunk.pool instr before = .ok () after) :
      Visits chunk m (offset + 1) after

/-- How a run of the chunk from `m` may end: at a `halt`, at an instruction that fails, or after the
last instruction. -/
inductive Ends (chunk : Chunk) (m : Machine) : Except Fault Unit × Machine → Prop
  | halt {offset : Nat} {before : Machine} (hbefore : Visits chunk m offset before)
      (hinstr : chunk.code[offset]? = some .halt) : Ends chunk m (.ok (), before)
  | failure {offset : Nat} {instr : Instr} {before after : Machine} {e : RuntimeError}
      (hbefore : Visits chunk m offset before) (hinstr : chunk.code[offset]? = some instr)
      (hstep : Machine.step chunk.pool instr before = .error e after) :
      Ends chunk m (.error ⟨e, chunk.posAt offset⟩, after)
  | outOfCode {offset : Nat} {before : Machine} (hbefore : Visits chunk m offset before)
      (hend : chunk.code[offset]? = none) :
      Ends chunk m (.error ⟨.internal .endOfCode, chunk.posAt (offset - 1)⟩, before)

theorem Visits.ends {chunk : Chunk} {m before : Machine} {offset : Nat} {rest : List Instr}
    (hbefore : Visits chunk m offset before) (hrest : chunk.code.toList.drop offset = rest) :
    Ends chunk m (execute chunk offset rest before) := by
  induction rest generalizing offset before with
  | nil =>
      refine .outOfCode hbefore ?_
      rw [← Array.getElem?_toList]
      exact List.getElem?_eq_none (List.drop_eq_nil_iff.mp hrest)
  | cons instr rest ih =>
      have hinstr : chunk.code[offset]? = some instr := by
        have hhead := congrArg List.head? hrest
        rwa [List.head?_drop, Array.getElem?_toList] at hhead
      have htail : chunk.code.toList.drop (offset + 1) = rest := by
        have htail := congrArg List.tail hrest
        rwa [List.tail_drop] at htail
      by_cases hhalt : instr = .halt
      · subst hhalt
        exact .halt hbefore hinstr
      · rw [execute_cons chunk offset hhalt]
        cases hstep : Machine.step chunk.pool instr before with
        | ok _ after => exact ih (hbefore.step hinstr hhalt hstep) htail
        | error e after => exact .failure hbefore hinstr hstep

theorem run_ends (chunk : Chunk) (m : Machine) : Ends chunk m (m.run chunk) :=
  Visits.start.ends rfl

end Scriptlet.Machine
