import Scriptlet.Proofs.Acceptance
import Scriptlet.Proofs.Lowering.Basic
import Scriptlet.Proofs.Running

/-! # Depth of the stack

Code can be checked without being run: every instruction needs some values on the stack and changes
their number in a fixed way. Checked code never fails for lack of a value or a constant. The code of
every script that is compiled passes the check, with an empty stack at its end.
-/

namespace Scriptlet

/-- Failures that have their cause in the code and not in the script. -/
def RuntimeError.IsDefect : RuntimeError → Prop
  | .stackUnderflow | .internal _ => True
  | _ => False

/-- Whether the constant at an index can name a global. -/
def Pool.isName (pool : Pool) (index : Nat) : Bool :=
  match pool.get? index with
  | some (.str _) => true
  | _ => false

theorem Pool.exists_of_isName {pool : Pool} {index : Nat} (hname : pool.isName index = true) :
    ∃ name, pool.get? index = some (.str name) := by
  unfold isName at hname
  split at hname
  next name hget => exact ⟨name, hget⟩
  next => contradiction

/-- The depth of the stack after an instruction that is executed at `depth`; none if it must not be
executed there. The end of a run has no depth after it. -/
def Instr.depthAfter? (pool : Pool) (depth : Nat) : Instr → Option Nat
  | .constant index => if index < pool.size then some (depth + 1) else none
  | .pushNil | .pushTrue | .pushFalse => some (depth + 1)
  | .negate | .not => if 1 ≤ depth then some depth else none
  | .add | .subtract | .multiply | .divide | .equal | .greater | .less =>
    if 2 ≤ depth then some (depth - 1) else none
  | .declGlobal index | .setGlobal index =>
    if pool.isName index ∧ 1 ≤ depth then some depth else none
  | .getGlobal index => if pool.isName index then some (depth + 1) else none
  | .declLocal slot => if depth = slot + 1 then some depth else none
  | .setLocal slot => if slot < depth then some depth else none
  | .getLocal slot => if slot < depth then some (depth + 1) else none
  | .print | .pop => if 1 ≤ depth then some (depth - 1) else none
  | .halt => none

/-- The depth of the stack after instructions in order. -/
def Instr.depthAfterAll? (pool : Pool) (depth : Nat) : List Instr → Option Nat
  | [] => some depth
  | instr :: rest => (instr.depthAfter? pool depth).bind (depthAfterAll? pool · rest)

theorem Instr.depthAfterAll?_append (pool : Pool) (depth : Nat) (first second : List Instr) :
    depthAfterAll? pool depth (first ++ second) =
      (depthAfterAll? pool depth first).bind (depthAfterAll? pool · second) := by
  induction first generalizing depth with
  | nil => rfl
  | cons instr rest ih => simp [depthAfterAll?, Option.bind_assoc, ih]

/-- In checked code every instruction can be executed at the depth that those before it lead to. -/
theorem Instr.exists_depthAfter? {pool : Pool} {instrs : List Instr} {start final offset : Nat}
    {instr : Instr} (hdepth : depthAfterAll? pool start instrs = some final)
    (hinstr : instrs[offset]? = some instr) :
    ∃ depth depth', depthAfterAll? pool start (instrs.take offset) = some depth ∧
      instr.depthAfter? pool depth = some depth' ∧
      depthAfterAll? pool start (instrs.take (offset + 1)) = some depth' := by
  have htake : instrs.take (offset + 1) = instrs.take offset ++ [instr] := by
    rw [List.take_add_one, hinstr]
    rfl
  rw [← List.take_append_drop (offset + 1) instrs, depthAfterAll?_append] at hdepth
  obtain ⟨depth', hprefix, _⟩ := Option.bind_eq_some_iff.mp hdepth
  have hsplit := hprefix
  rw [htake, depthAfterAll?_append] at hsplit
  obtain ⟨depth, hbefore, hlast⟩ := Option.bind_eq_some_iff.mp hsplit
  obtain ⟨_, hnext, ⟨⟩⟩ := Option.bind_eq_some_iff.mp hlast
  exact ⟨depth, depth', hbefore, hnext, hprefix⟩

/-- Checked code does not end the run. -/
theorem Instr.halt_not_mem {pool : Pool} {instrs : List Instr} {start final : Nat}
    (hdepth : depthAfterAll? pool start instrs = some final) : Instr.halt ∉ instrs := by
  intro hmem
  obtain ⟨offset, hoffset⟩ := List.getElem?_of_mem hmem
  obtain ⟨_, _, _, hhalt, _⟩ := exists_depthAfter? hdepth hoffset
  contradiction

/-! ## Checked code on the machine -/

namespace Machine

/-- From a stack of one depth, a step ends at another depth or fails for a reason in the script. It
exhausts the stack only if one of the two depths is beyond the limit, which does not change. -/
def Moves {α : Type} (depth : Nat) (x : Step α) (depth' : Nat) : Prop :=
  ∀ m : Machine, m.stack.depth = depth →
    match x m with
    | .ok _ m' => m'.stack.depth = depth' ∧ m'.stack.limit = m.stack.limit
    | .error e _ => ¬e.IsDefect ∧
        ∀ limit, e = .stackOverflow limit → m.stack.limit < max depth depth'

namespace Moves

variable {α β : Type} {depth depth' depth'' : Nat}

theorem bind {x : Step α} {f : α → Step β} (hx : Moves depth x depth')
    (hf : ∀ a, Moves depth' (f a) depth'') (hle : depth' ≤ max depth depth'' := by omega) :
    Moves depth (x >>= f) depth'' := by
  intro m hm
  have hfirst := hx m hm
  simp only [Bind.bind, EStateM.bind]
  cases hxm : x m with
  | ok a m' =>
      rw [hxm] at hfirst
      have hsecond := hf a m' hfirst.1
      dsimp only
      cases hfa : f a m' with
      | ok b m'' =>
          rw [hfa] at hsecond
          exact ⟨hsecond.1, hsecond.2.trans hfirst.2⟩
      | error e m'' =>
          rw [hfa] at hsecond
          refine ⟨hsecond.1, fun limit he => ?_⟩
          have hroom := hsecond.2 limit he
          rw [hfirst.2] at hroom
          omega
  | error e m' =>
      rw [hxm] at hfirst
      refine ⟨hfirst.1, fun limit he => ?_⟩
      have hroom := hfirst.2 limit he
      omega

theorem pure (a : α) : Moves depth (Pure.pure a : Step α) depth := fun _ hm => ⟨hm, rfl⟩

theorem throw {e : RuntimeError} (he : ¬e.IsDefect) (hroom : ∀ limit, e ≠ .stackOverflow limit) :
    Moves depth (MonadExcept.throw e : Step α) depth' :=
  fun _ _ => ⟨he, fun limit heq => absurd heq (hroom limit)⟩

theorem push (value : Value) : Moves depth (Machine.push value) (depth + 1) := by
  intro m hm
  by_cases hroom : m.stack.values.size < m.stack.limit
  · simpa [Machine.push, Stack.push, hroom, Stack.depth] using hm
  · have hlimit : m.stack.limit < depth + 1 := by
      rw [Stack.depth] at hm
      omega
    simp [Machine.push, Stack.push, hroom, RuntimeError.IsDefect, hlimit]

theorem pop : Moves (depth + 1) Machine.pop depth := by
  intro m (hm : m.stack.values.size = depth + 1)
  have hback : m.stack.values.back? ≠ none := by
    rw [ne_eq, Array.back?_eq_none_iff]
    rintro hempty
    simp [hempty] at hm
  obtain ⟨value, hvalue⟩ := Option.ne_none_iff_exists'.mp hback
  simp [Machine.pop, Stack.pop, hvalue, Stack.depth, hm]

theorem getSlot {slot : Nat} (hslot : slot < depth) : Moves depth (Machine.getSlot slot) depth := by
  intro m (hm : m.stack.values.size = depth)
  have hget : m.stack.values[slot]? ≠ none := by
    rw [ne_eq, Array.getElem?_eq_none_iff]
    omega
  obtain ⟨value, hvalue⟩ := Option.ne_none_iff_exists'.mp hget
  simpa [Machine.getSlot, Stack.get, hvalue, Stack.depth] using hm

theorem peek {distance : Nat} (hdistance : distance < depth) :
    Moves depth (Machine.peek distance) depth := by
  intro m (hm : m.stack.values.size = depth)
  have hslot : m.stack.values.size - 1 - distance < depth := by omega
  simp only [Machine.peek, Stack.peek, if_pos (hm ▸ hdistance)]
  exact getSlot hslot m hm

theorem setSlot {slot : Nat} (hslot : slot < depth) (value : Value) :
    Moves depth (Machine.setSlot slot value) depth := by
  intro m (hm : m.stack.values.size = depth)
  simp [Machine.setSlot, Stack.set, hm, hslot, Stack.depth]

theorem write (text : String) : Moves depth (Machine.write text) depth := by
  rintro ⟨stack, globals, sink⟩ hm
  unfold Machine.write
  dsimp only
  split
  next hresult =>
    split at hresult
    · cases hresult
      exact ⟨hm, rfl⟩
    · contradiction
  next hresult =>
    split at hresult
    · contradiction
    · cases hresult
      simp [RuntimeError.IsDefect]

theorem global? (name : String) : Moves depth (Machine.global? name) depth :=
  fun _ hm => ⟨hm, rfl⟩

theorem setGlobals (change : Globals → Globals) : Moves depth (Machine.setGlobals change) depth :=
  fun _ hm => ⟨hm, rfl⟩

theorem result (value : Except ValueError Value) : Moves depth (Machine.result value) depth := by
  cases value with
  | ok value => exact pure value
  | error e =>
      apply throw
      · cases e <;> simp [RuntimeError.ofValueError, RuntimeError.IsDefect]
      · cases e <;> simp [RuntimeError.ofValueError]

theorem unary (operation : Value → Except ValueError Value) :
    Moves (depth + 1) (Machine.unary operation) (depth + 1) :=
  pop.bind fun _ => (result _).bind fun _ => push _

theorem binary (operation : Value → Value → Except ValueError Value) :
    Moves (depth + 2) (Machine.binary operation) (depth + 1) :=
  pop.bind fun _ => pop.bind fun _ => (result _).bind fun _ => push _

/-- A constant that is in range can be fetched. -/
theorem constant {pool : Pool} {index : Nat} (hindex : index < pool.size) :
    Moves depth (Machine.constant pool index) depth := by
  have hget : pool.get? index ≠ none := by
    rw [ne_eq, Pool.get?, Option.map_eq_none_iff, Array.getElem?_eq_none_iff, not_le]
    exact hindex
  obtain ⟨value, hvalue⟩ := Option.ne_none_iff_exists'.mp hget
  rw [Machine.constant, hvalue]
  exact pure value

end Moves

theorem globalName_eq {pool : Pool} {index : Nat} {name : String}
    (hname : pool.get? index = some (.str name)) : globalName pool index = pure name := by
  rw [globalName, constant, hname]
  rfl

/-- An instruction that passes the check at some depth moves the stack as the check says. -/
theorem moves_step {pool : Pool} {instr : Instr} {depth depth' : Nat}
    (hdepth : instr.depthAfter? pool depth = some depth') :
    Moves depth (step pool instr) depth' := by
  cases instr with
  | constant index =>
      obtain ⟨hindex, ⟨⟩⟩ := Option.ite_none_right_eq_some.mp hdepth
      exact (Moves.constant hindex).bind fun _ => .push _
  | pushNil | pushTrue | pushFalse =>
      obtain rfl := Option.some.inj hdepth
      exact .push _
  | negate | not =>
      obtain ⟨hle, ⟨⟩⟩ := Option.ite_none_right_eq_some.mp hdepth
      obtain ⟨rest, rfl⟩ := Nat.exists_eq_add_of_le' hle
      exact .unary _
  | add | subtract | multiply | divide | equal | greater | less =>
      obtain ⟨hle, ⟨⟩⟩ := Option.ite_none_right_eq_some.mp hdepth
      obtain ⟨rest, rfl⟩ := Nat.exists_eq_add_of_le' hle
      exact .binary _
  | declGlobal index =>
      obtain ⟨⟨hname, hle⟩, ⟨⟩⟩ := Option.ite_none_right_eq_some.mp hdepth
      obtain ⟨name, hget⟩ := Pool.exists_of_isName hname
      rw [step, globalName_eq hget]
      refine (Moves.pure name).bind fun name => (Moves.global? name).bind fun value => ?_
      cases value with
      | some value => exact .throw (by simp [RuntimeError.IsDefect]) (by simp)
      | none => exact (Moves.peek hle).bind fun value => .setGlobals _
  | setGlobal index =>
      obtain ⟨⟨hname, hle⟩, ⟨⟩⟩ := Option.ite_none_right_eq_some.mp hdepth
      obtain ⟨name, hget⟩ := Pool.exists_of_isName hname
      rw [step, globalName_eq hget]
      refine (Moves.pure name).bind fun name => (Moves.peek hle).bind fun value =>
        (Moves.global? name).bind fun old => ?_
      cases old with
      | some old => exact .setGlobals _
      | none => exact .throw (by simp [RuntimeError.IsDefect]) (by simp)
  | getGlobal index =>
      obtain ⟨hname, ⟨⟩⟩ := Option.ite_none_right_eq_some.mp hdepth
      obtain ⟨name, hget⟩ := Pool.exists_of_isName hname
      rw [step, globalName_eq hget]
      refine (Moves.pure name).bind fun name => (Moves.global? name).bind fun value => ?_
      cases value with
      | some value => exact .push value
      | none => exact .throw (by simp [RuntimeError.IsDefect]) (by simp)
  | declLocal slot =>
      obtain ⟨rfl, ⟨⟩⟩ := Option.ite_none_right_eq_some.mp hdepth
      intro m hm
      simp [step, hm]
  | setLocal slot =>
      obtain ⟨hslot, ⟨⟩⟩ := Option.ite_none_right_eq_some.mp hdepth
      exact (Moves.peek (Nat.zero_lt_of_lt hslot)).bind fun value => .setSlot hslot value
  | getLocal slot =>
      obtain ⟨hslot, ⟨⟩⟩ := Option.ite_none_right_eq_some.mp hdepth
      exact (Moves.getSlot hslot).bind fun value => .push value
  | print =>
      obtain ⟨hle, ⟨⟩⟩ := Option.ite_none_right_eq_some.mp hdepth
      obtain ⟨rest, rfl⟩ := Nat.exists_eq_add_of_le' hle
      exact Moves.pop.bind fun value => .write _
  | pop =>
      obtain ⟨hle, ⟨⟩⟩ := Option.ite_none_right_eq_some.mp hdepth
      obtain ⟨rest, rfl⟩ := Nat.exists_eq_add_of_le' hle
      exact Moves.pop.bind fun value => .pure ()
  | halt => contradiction

/-- An instruction of code that ends in `halt` is that `halt` or stands before it. -/
theorem getElem?_of_code {chunk : Chunk} {instrs : List Instr} {offset : Nat} {instr : Instr}
    (hcode : chunk.code.toList = instrs ++ [.halt]) (hinstr : chunk.code[offset]? = some instr)
    (hhalt : instr ≠ .halt) : instrs[offset]? = some instr := by
  rw [← Array.getElem?_toList, hcode] at hinstr
  by_cases hlt : offset < instrs.length
  · rwa [List.getElem?_append_left hlt] at hinstr
  · rw [List.getElem?_append_right (Nat.le_of_not_lt hlt)] at hinstr
    have hlast := List.mem_singleton.mp (List.mem_of_getElem? hinstr)
    exact absurd hlast hhalt

/-- Wherever a run of checked code gets to, the stack is as deep as the check says. -/
theorem Visits.depth_eq {chunk : Chunk} {m before : Machine} {offset final : Nat}
    {instrs : List Instr} (hcode : chunk.code.toList = instrs ++ [.halt])
    (hdepth : Instr.depthAfterAll? chunk.pool 0 instrs = some final)
    (hvisits : Visits chunk m offset before) :
    Instr.depthAfterAll? chunk.pool 0 (instrs.take offset) = some before.stack.depth := by
  induction hvisits with
  | start => rfl
  | @step offset instr before after _ hinstr hhalt hstep ih =>
      have hget := getElem?_of_code hcode hinstr hhalt
      obtain ⟨depth, depth', hbefore, hnext, hafter⟩ := Instr.exists_depthAfter? hdepth hget
      rw [ih] at hbefore
      obtain rfl := Option.some.inj hbefore
      have hmoves := moves_step hnext before rfl
      rw [hstep] at hmoves
      rw [hafter, hmoves.1]

end Machine

/-! ## The code of scripts is checked -/

section Lowered

variable {pool : Pool} {names : List String} {depth : Nat}

theorem Pool.isName_index {name : String} (hname : .ofValue (.str name) ∈ pool.held) :
    pool.isName (pool.index (.str name)) = true := by
  rw [isName, get?_index hname]

theorem Pool.depthAfter?_load {value : Value} (hvalue : pool.Holds value.pooled) :
    (pool.load value).depthAfter? pool depth = some (depth + 1) := by
  have hconstant : ∀ {value : Value}, .ofValue value ∈ pool.held →
      (Instr.constant (pool.index value)).depthAfter? pool depth = some (depth + 1) :=
    fun hvalue => if_pos (index_lt_size hvalue)
  cases value with
  | nil => rfl
  | bool b => cases b <;> rfl
  | int | float | str => exact hconstant (hvalue _ List.mem_cons_self)

theorem Pool.depthAfter?_read {name : String} (hholds : pool.Holds (Blocks.pooledName names name))
    (hdepth : names.length ≤ depth) :
    (pool.read (.ofNames names) name).depthAfter? pool depth = some (depth + 1) := by
  unfold Pool.read
  cases hslot : (Frame.ofNames names).slot? name with
  | some slot => exact if_pos (Nat.lt_of_lt_of_le (Frame.slot?_ofNames_lt hslot) hdepth)
  | none =>
      have hname := hholds.mem_of_not_mem (Frame.slot?_ofNames_eq_none_iff.mp hslot)
      exact if_pos (isName_index hname)

theorem Pool.depthAfter?_write {name : String} (hholds : pool.Holds (Blocks.pooledName names name))
    (hdepth : names.length ≤ depth) :
    (pool.write (.ofNames names) name).depthAfter? pool (depth + 1) = some (depth + 1) := by
  unfold Pool.write
  cases hslot : (Frame.ofNames names).slot? name with
  | some slot =>
      have hlt := Frame.slot?_ofNames_lt hslot
      exact if_pos (by omega)
  | none =>
      have hname := hholds.mem_of_not_mem (Frame.slot?_ofNames_eq_none_iff.mp hslot)
      exact if_pos ⟨isName_index hname, Nat.le_add_left 1 depth⟩

theorem BinaryOp.depthAfterAll?_instrs (op : BinaryOp) (rest : List Instr) :
    Instr.depthAfterAll? pool (depth + 2) (op.instrs ++ rest) =
      Instr.depthAfterAll? pool (depth + 1) rest := by
  cases op <;> simp [BinaryOp.instrs, Instr.depthAfterAll?, Instr.depthAfter?]

/-- The code of an expression adds one value to the stack. -/
theorem Expr.depthAfterAll?_code {e : Expr} (hholds : pool.Holds (e.constants names))
    (hdepth : names.length ≤ depth) (k : Code) :
    Instr.depthAfterAll? pool depth ((e.code pool (.ofNames names) k).map Prod.fst) =
      Instr.depthAfterAll? pool (depth + 1) (k.map Prod.fst) := by
  induction e generalizing depth k with
  | literal value pos =>
      simp [Expr.code, Instr.depthAfterAll?, Pool.depthAfter?_load hholds]
  | var name pos =>
      simp [Expr.code, Instr.depthAfterAll?, Pool.depthAfter?_read hholds hdepth]
  | assign name value ih =>
      obtain ⟨hname, hvalue⟩ := Pool.holds_append.mp hholds
      rw [Expr.code, ih hvalue hdepth]
      simp [Instr.depthAfterAll?, Pool.depthAfter?_write hname hdepth]
  | group inner close ih => exact ih hholds hdepth k
  | unary op operand ih =>
      rw [Expr.code, ih hholds hdepth]
      cases op <;> simp [Instr.depthAfterAll?, UnaryOp.instr, Instr.depthAfter?]
  | binary op left right ihl ihr =>
      obtain ⟨hleft, hright⟩ := Pool.holds_append.mp hholds
      rw [Expr.code, ihl hleft hdepth, ihr hright (Nat.le_succ_of_le hdepth), List.map_append,
        List.map_map]
      simpa [Function.comp_def] using BinaryOp.depthAfterAll?_instrs op (k.map Prod.fst)

theorem Expr.depthAfterAll?_codeOrNil {e : Option Expr}
    (hholds : pool.Holds (Expr.constantsOptional names e)) (hdepth : names.length ≤ depth)
    (pos : Pos) (k : Code) :
    Instr.depthAfterAll? pool depth ((Expr.codeOrNil pool (.ofNames names) pos e k).map Prod.fst) =
      Instr.depthAfterAll? pool (depth + 1) (k.map Prod.fst) := by
  cases e with
  | none => rfl
  | some e => exact depthAfterAll?_code hholds hdepth k

end Lowered

theorem Instr.depthAfterAll?_replicate_pop (pool : Pool) (count depth : Nat) (rest : List Instr) :
    depthAfterAll? pool (count + depth) (List.replicate count .pop ++ rest) =
      depthAfterAll? pool depth rest := by
  induction count with
  | zero => simp
  | succ count ih =>
      have hpop : Instr.pop.depthAfter? pool (count + 1 + depth) = some (count + depth) := by
        simp only [depthAfter?, Option.ite_none_right_eq_some, Option.some.injEq]
        omega
      rw [List.replicate_succ, List.cons_append, depthAfterAll?, hpop, Option.bind_some, ih]

mutual

/-- Between statements the stack holds the variables in scope and nothing else. -/
theorem Stmt.depthAfterAll?_code {pool : Pool} {blocks : Blocks} : ∀ {s : Stmt} (k : Code),
    (s.isDecl = true → blocks ≠ []) → pool.Holds (s.constants blocks) → s.WellScoped blocks →
    Instr.depthAfterAll? pool blocks.names.length
        ((s.code pool (.ofNames blocks.names) k).map Prod.fst) =
      Instr.depthAfterAll? pool (blocks.after s).names.length (k.map Prod.fst)
  | .expr value stop, k, _, hholds, _ => by
      rw [Stmt.code, Expr.depthAfterAll?_code hholds (Nat.le_refl _)]
      rfl
  | .print argument opening stop, k, _, hholds, _ => by
      rw [Stmt.code, Expr.depthAfterAll?_codeOrNil hholds (Nat.le_refl _)]
      rfl
  | .decl name pos initial stop, k, hblock, hholds, hscoped => by
      obtain ⟨innermost, outer, rfl⟩ := List.exists_cons_of_ne_nil (hblock rfl)
      rw [Stmt.constants_decl hscoped] at hholds
      rw [Stmt.code, Expr.depthAfterAll?_codeOrNil hholds (Nat.le_refl _), Frame.size_ofNames,
        List.map_cons, Instr.depthAfterAll?, Instr.depthAfter?, if_pos rfl]
      rfl
  | .block inner close, k, _, hholds, hscoped => by
      rw [Stmt.code, Frame.size_ofNames]
      exact Stmt.depthAfterAll?_codeBody k hholds hscoped

theorem Stmt.depthAfterAll?_codeBody {pool : Pool} {innermost : List String} {outer : Blocks}
    {close : Pos} : ∀ {body : List Stmt} (k : Code),
    pool.Holds (Stmt.constantsAll (innermost :: outer) body) →
    Stmt.WellScopedAll (innermost :: outer) body →
    Instr.depthAfterAll? pool (Blocks.names (innermost :: outer)).length
        ((Stmt.codeBody pool outer.names.length close
          (.ofNames (Blocks.names (innermost :: outer))) body k).map Prod.fst) =
      Instr.depthAfterAll? pool outer.names.length (k.map Prod.fst)
  | [], k, _, _ => by
      have hnames : (Blocks.names (innermost :: outer)).length =
          innermost.length + outer.names.length := List.length_append
      rw [Stmt.codeBody, Frame.size_ofNames, List.map_append, List.map_replicate, hnames,
        Nat.add_sub_cancel]
      exact Instr.depthAfterAll?_replicate_pop pool _ _ _
  | s :: rest, k, hholds, hscoped => by
      obtain ⟨hs, hrest⟩ := Pool.holds_append.mp hholds
      obtain ⟨names, hafter⟩ := Blocks.exists_after_cons innermost outer s
      rw [Stmt.codeBody, Stmt.depthAfterAll?_code _ (fun _ => List.cons_ne_nil _ _) hs hscoped.1,
        Frame.after_ofNames, hafter]
      have hscoped' := hscoped.2
      rw [hafter] at hrest hscoped'
      exact Stmt.depthAfterAll?_codeBody k hrest hscoped'

end

theorem Stmt.depthAfterAll?_topCode {pool : Pool} {s : Stmt} (hholds : pool.Holds (s.constants []))
    (hscoped : s.WellScoped []) (k : Code) :
    Instr.depthAfterAll? pool 0 ((s.topCode pool k).map Prod.fst) =
      Instr.depthAfterAll? pool 0 (k.map Prod.fst) := by
  cases s with
  | decl name pos initial stop =>
      obtain ⟨hname, hinitial⟩ := Pool.holds_append.mp hholds
      have hmem : .ofValue (.str name) ∈ pool.held := hname _ (by simp)
      have hisName := Pool.isName_index hmem
      have hcode := Expr.depthAfterAll?_codeOrNil hinitial (Nat.le_refl 0) pos
        ((.declGlobal (pool.index (.str name)), stop) :: (.pop, stop) :: k)
      rw [Stmt.topCode]
      refine hcode.trans ?_
      simp [Instr.depthAfterAll?, Instr.depthAfter?, hisName]
  | expr | print | block =>
      exact Stmt.depthAfterAll?_code k (fun hdecl => absurd hdecl (by simp [Stmt.isDecl])) hholds
        hscoped

theorem Stmt.depthAfterAll?_foldr_topCode {pool : Pool} {body : List Stmt}
    (hholds : pool.Holds (Stmt.constantsAll [] body)) (hscoped : Stmt.WellScopedAll [] body) :
    Instr.depthAfterAll? pool 0 ((body.foldr (·.topCode pool) []).map Prod.fst) = some 0 := by
  induction body with
  | nil => rfl
  | cons s rest ih =>
      obtain ⟨hs, hrest⟩ := Pool.holds_append.mp hholds
      have hscoped' := hscoped.2
      rw [Blocks.after_nil] at hrest hscoped'
      rw [List.foldr_cons, Stmt.depthAfterAll?_topCode hs hscoped.1, ih hrest hscoped']

/-- The code of a script passes the check, and the stack is empty at its end. -/
theorem Program.depthAfterAll?_instrs {program : Program} {pool : Pool}
    (hholds : pool.Holds program.constants) (hscoped : program.WellScoped) :
    Instr.depthAfterAll? pool 0 (program.instrs pool) = some 0 :=
  Stmt.depthAfterAll?_foldr_topCode hholds hscoped

end Scriptlet
