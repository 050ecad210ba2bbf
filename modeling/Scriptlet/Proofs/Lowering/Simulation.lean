import Scriptlet.Meaning
import Scriptlet.Proofs.Lowering.Pools

/-! # Lowered code means what the script means

Performing the code of a tree and evaluating the tree go hand in hand. Between them stands
`Matches`: the stack holds the values of the block variables, each in its slot, and above them the
operands that wait for their operator. The machine alone can run out of room, on the stack or for
output; apart from that both fail alike.
-/

namespace Scriptlet

/-- Failures for lack of room, which evaluation does not know. A sink without a limit has room. -/
def RuntimeError.IsExhaustion (sink : Sink) : RuntimeError → Prop
  | .stackOverflow _ => True
  | .output _ => sink.limit ≠ none
  | _ => False

namespace Machine

theorem pop_eq {m : Machine} {values : List Value} {value : Value}
    (hstack : m.stack.values.toList = values ++ [value]) :
    pop m = .ok value { m with stack := { m.stack with values := values.toArray } } := by
  obtain ⟨⟨⟨list⟩, limit⟩, globals, sink⟩ := m
  obtain rfl : list = values ++ [value] := hstack
  simp [pop, Stack.pop]

theorem peek_eq {m : Machine} {values : List Value} {value : Value}
    (hstack : m.stack.values.toList = values ++ [value]) : peek 0 m = .ok value m := by
  obtain ⟨⟨⟨list⟩, limit⟩, globals, sink⟩ := m
  obtain rfl : list = values ++ [value] := hstack
  simp [peek, Stack.peek, Stack.get]

/-- What can be seen of a machine agrees with an environment, where `start` was the sink before the
evaluation began. -/
structure Shows (start : Sink) (m : Machine) (env : Env) : Prop where
  globals : m.globals = env.globals
  sink : m.sink = ⟨start.written ++ env.printed.toUTF8, start.limit⟩

/-- The machine is in the middle of an evaluation: `names` are the block variables in scope and
`pending` the operands on top of them, both with the latest at the end that is worked on. -/
structure Matches (start : Sink) (names : List String) (pending : List Value) (m : Machine)
    (env : Env) : Prop extends Shows start m env where
  names : env.locals.map Prod.fst = names
  stack : m.stack.values.toList = (env.locals.map Prod.snd).reverse ++ pending

/-- From states that are related by `P`, a step of the machine and an evaluation both succeed, with
results and states related by `Q`, or fail alike; or the machine runs out of room. -/
def Simulates {α β : Type} (start : Sink) (P : Machine → Env → Prop) (x : Step α) (y : Eval β)
    (Q : α → β → Machine → Env → Prop) : Prop :=
  ∀ m env, P m env →
    match x m with
    | .ok a m' => ∃ b env', y env = .ok b env' ∧ Q a b m' env'
    | .error e m' => e.IsExhaustion start ∨ ∃ env', y env = .error e env' ∧ Shows start m' env'

namespace Simulates

variable {α α' β β' : Type} {start : Sink} {P : Machine → Env → Prop}
  {names : List String} {pending : List Value}

theorem bind {x : Step α} {y : Eval β} {Q : α → β → Machine → Env → Prop} {f : α → Step α'}
    {g : β → Eval β'} {R : α' → β' → Machine → Env → Prop} (hx : Simulates start P x y Q)
    (hf : ∀ a b, Simulates start (Q a b) (f a) (g b) R) :
    Simulates start P (x >>= f) (y >>= g) R := by
  intro m env hP
  have hfirst := hx m env hP
  simp only [Bind.bind, EStateM.bind]
  cases hxm : x m with
  | ok a m' =>
      rw [hxm] at hfirst
      obtain ⟨b, env', hy, hQ⟩ := hfirst
      rw [hy]
      exact hf a b m' env' hQ
  | error e m' =>
      rw [hxm] at hfirst
      refine hfirst.imp_right ?_
      rintro ⟨env', hy, hshows⟩
      exact ⟨env', by rw [hy], hshows⟩

theorem pure {a : α} {b : β} {Q : α → β → Machine → Env → Prop}
    (hQ : ∀ m env, P m env → Q a b m env) :
    Simulates start P (Pure.pure a) (Pure.pure b) Q :=
  fun m env hP => ⟨b, env, rfl, hQ m env hP⟩

/-! ## Operands -/

theorem push (value : Value) :
    Simulates start (Matches start names pending) (Machine.push value) (Pure.pure value)
      (fun _ v => Matches start names (pending ++ [v])) := by
  intro m env hm
  by_cases hroom : m.stack.values.size < m.stack.limit
  · simp only [Machine.push, Stack.push, hroom, if_true]
    refine ⟨value, env, rfl, ⟨hm.globals, hm.sink⟩, hm.names, ?_⟩
    simp [hm.stack]
  · simp only [Machine.push, Stack.push, hroom, if_false]
    exact .inl trivial

theorem pop (value : Value) :
    Simulates start (Matches start names (pending ++ [value])) Machine.pop (Pure.pure ())
      (fun a _ m env => a = value ∧ Matches start names pending m env) := by
  intro m env hm
  rw [pop_eq (hm.stack.trans (List.append_assoc _ _ _).symm)]
  exact ⟨(), env, rfl, rfl, ⟨hm.globals, hm.sink⟩, hm.names, rfl⟩

/-- The result of an operation replaces its operands. -/
theorem result (value : Except ValueError Value) :
    Simulates start (Matches start names pending)
      (Machine.result value >>= fun v => Machine.push v) (Env.result value)
      (fun _ v => Matches start names (pending ++ [v])) := by
  cases value with
  | ok value => exact push value
  | error e => exact fun m env hm => .inr ⟨env, rfl, ⟨hm.globals, hm.sink⟩⟩

/-- The machine has an operand to pop where the evaluation has it at hand. -/
theorem pop_bind {value : Value} {f : Value → Step α} {y : Eval β}
    {Q : α → β → Machine → Env → Prop}
    (hf : Simulates start (Matches start names pending) (f value) y Q) :
    Simulates start (Matches start names (pending ++ [value])) (Machine.pop >>= f) y Q := by
  refine bind (y := Pure.pure ()) (g := fun _ => y) (pop value) ?_
  rintro a _ m env ⟨rfl, hm⟩
  exact hf m env hm

theorem unary (operation : Value → Except ValueError Value) (a : Value) :
    Simulates start (Matches start names (pending ++ [a])) (Machine.unary operation)
      (Env.result (operation a)) (fun _ v => Matches start names (pending ++ [v])) :=
  pop_bind (result (operation a))

theorem binary (operation : Value → Value → Except ValueError Value) (a b : Value) :
    Simulates start (Matches start names (pending ++ [a] ++ [b])) (Machine.binary operation)
      (Env.result (operation a b)) (fun _ v => Matches start names (pending ++ [v])) :=
  pop_bind (pop_bind (result (operation a b)))

/-- An operation followed by a negation is the operation with its result negated. -/
theorem binary_not {operation : Value → Value → Except ValueError Value} {a b : Value}
    {negated : Except ValueError Value} (hnegated : (operation a b).bind Value.not = negated) :
    Simulates start (Matches start names (pending ++ [a] ++ [b]))
      (Machine.binary operation >>= fun _ => Machine.unary Value.not) (Env.result negated)
      (fun _ v => Matches start names (pending ++ [v])) := by
  have hresult : Env.result negated = Env.result (operation a b) >>= fun c => Env.result c.not := by
    rw [← hnegated]
    cases operation a b <;> rfl
  rw [hresult]
  exact (binary operation a b).bind fun _ c => unary Value.not c

end Simulates

end Machine

/-! ## Variables -/

namespace Env

/-- Block variables lie on the stack in the order of their slots. -/
theorem lookup_of_slot? {locals : List (String × Value)} {name : String} {slot : Nat}
    (hslot : (Frame.ofNames (locals.map Prod.fst)).slot? name = some slot) :
    ∃ value, locals.lookup name = some value ∧
      (locals.map Prod.snd).reverse[slot]? = some value := by
  induction locals with
  | nil => simp [Frame.ofNames, Frame.slot?, Frame.empty] at hslot
  | cons binding outer ih =>
      obtain ⟨first, value⟩ := binding
      rw [List.map_cons, Frame.slot?_ofNames_cons] at hslot
      split at hslot
      next hname =>
        refine ⟨value, by simp [hname], ?_⟩
        simp [← Option.some.inj hslot]
      next hname =>
        obtain ⟨old, hlookup, hold⟩ := ih hslot
        refine ⟨old, by rw [List.lookup_cons, beq_false_of_ne hname, hlookup], ?_⟩
        rw [List.map_cons, List.reverse_cons, List.getElem?_append_left]
        · exact hold
        · exact (List.getElem?_eq_some_iff.mp hold).1

theorem lookup_of_slot?_eq_none {locals : List (String × Value)} {name : String}
    (hslot : (Frame.ofNames (locals.map Prod.fst)).slot? name = none) :
    locals.lookup name = none := by
  have hname := Frame.slot?_ofNames_eq_none_iff.mp hslot
  rw [List.lookup_eq_none_iff]
  intro binding hbinding
  rw [bne_iff_ne]
  rintro rfl
  exact hname (List.mem_map_of_mem hbinding)

@[simp] theorem map_fst_setLocal (name : String) (value : Value) (locals : List (String × Value)) :
    (setLocal name value locals).map Prod.fst = locals.map Prod.fst := by
  induction locals with
  | nil => rfl
  | cons binding outer ih =>
      obtain ⟨first, old⟩ := binding
      rw [setLocal]
      split <;> simp [ih]

/-- To give a block variable a new value is to set its slot. -/
theorem setLocal_of_slot? {locals : List (String × Value)} {name : String} {slot : Nat}
    (hslot : (Frame.ofNames (locals.map Prod.fst)).slot? name = some slot) (value : Value) :
    ((setLocal name value locals).map Prod.snd).reverse =
      (locals.map Prod.snd).reverse.set slot value := by
  induction locals with
  | nil => simp [Frame.ofNames, Frame.slot?, Frame.empty] at hslot
  | cons binding outer ih =>
      obtain ⟨first, old⟩ := binding
      rw [List.map_cons, Frame.slot?_ofNames_cons] at hslot
      split at hslot
      next hname =>
        obtain rfl := Option.some.inj hslot
        simp [setLocal, hname]
      next hname =>
        have hslot' := Frame.slot?_ofNames_lt hslot
        rw [setLocal, if_neg (Ne.symm hname), List.map_cons, List.reverse_cons, ih hslot,
          List.map_cons, List.reverse_cons, List.set_append_left]
        simpa using hslot'

end Env

namespace Machine

section Instructions

variable {start : Sink} {names : List String} {pending : List Value} {pool : Pool}

theorem simulates_unaryOp (op : UnaryOp) (a : Value) :
    Simulates start (Matches start names (pending ++ [a])) (step pool op.instr)
      (Env.result (op.apply a)) (fun _ v => Matches start names (pending ++ [v])) := by
  cases op with
  | negate => exact .unary Value.negate a
  | not => exact .unary Value.not a

theorem simulates_binaryOp (op : BinaryOp) (a b : Value) :
    Simulates start (Matches start names (pending ++ [a] ++ [b])) (perform pool op.instrs)
      (Env.result (op.apply a b)) (fun _ v => Matches start names (pending ++ [v])) := by
  cases op with
  | add | subtract | multiply | divide | equal | greater | less =>
      rw [BinaryOp.instrs, perform_singleton]
      exact .binary _ a b
  | notEqual =>
      rw [BinaryOp.instrs, perform_cons, perform_singleton]
      exact .binary_not rfl
  | greaterEqual =>
      rw [BinaryOp.instrs, perform_cons, perform_singleton]
      exact .binary_not (by cases h : a.less b <;> simp [BinaryOp.apply, h] <;> rfl)
  | lessEqual =>
      rw [BinaryOp.instrs, perform_cons, perform_singleton]
      exact .binary_not (by cases h : a.greater b <;> simp [BinaryOp.apply, h] <;> rfl)

theorem simulates_load {value : Value} (hvalue : pool.Holds value.pooled) :
    Simulates start (Matches start names pending) (step pool (pool.load value)) (pure value)
      (fun _ v => Matches start names (pending ++ [v])) := by
  rw [step_load hvalue]
  exact .push value

/-- A variable is where its frame says, and what its name means. -/
theorem simulates_read {name : String} (hholds : pool.Holds (Blocks.pooledName names name)) :
    Simulates start (Matches start names pending) (step pool (pool.read (.ofNames names) name))
      (Env.read name) (fun _ v => Matches start names (pending ++ [v])) := by
  intro m env hm
  unfold Pool.read
  cases hslot : (Frame.ofNames names).slot? name with
  | some slot =>
      obtain ⟨value, hlookup, hvalue⟩ := Env.lookup_of_slot? (hm.names ▸ hslot)
      have hget : getSlot slot m = .ok value m := by
        have hbound := (List.getElem?_eq_some_iff.mp hvalue).1
        rw [← List.getElem?_append_left hbound, ← hm.stack, Array.getElem?_toList] at hvalue
        rw [getSlot, Stack.get, hvalue]
      have hpush := Simulates.push value m env hm
      simp only [step, Bind.bind, EStateM.bind, hget, Env.read, hlookup]
      exact hpush
  | none =>
      have hname := hholds.mem_of_not_mem (Frame.slot?_ofNames_eq_none_iff.mp hslot)
      have hlookup := Env.lookup_of_slot?_eq_none (hm.names ▸ hslot)
      simp only [step, globalName_index hname, global?, Bind.bind, EStateM.bind, Pure.pure,
        EStateM.pure, Env.read, hlookup, hm.globals]
      cases env.globals.get? name with
      | some value => exact Simulates.push value m env hm
      | none => exact .inr ⟨env, rfl, hm.globals, hm.sink⟩

/-- An assignment keeps the assigned value on top. -/
theorem simulates_write {name : String} (hholds : pool.Holds (Blocks.pooledName names name))
    (value : Value) :
    Simulates start (Matches start names (pending ++ [value]))
      (step pool (pool.write (.ofNames names) name)) (Env.write name value >>= fun _ => pure value)
      (fun _ v => Matches start names (pending ++ [v])) := by
  intro m env hm
  have hpeek : peek 0 m = .ok value m :=
    peek_eq (hm.stack.trans (List.append_assoc _ _ _).symm)
  unfold Pool.write
  cases hslot : (Frame.ofNames names).slot? name with
  | some slot =>
      obtain ⟨old, hlookup, hold⟩ := Env.lookup_of_slot? (hm.names ▸ hslot)
      have hbound := (List.getElem?_eq_some_iff.mp hold).1
      have hsize : slot < m.stack.values.size := by
        rw [← Array.length_toList, hm.stack, List.length_append]
        exact Nat.lt_add_right _ hbound
      simp only [step, hpeek, setSlot, Stack.set, if_pos hsize, Bind.bind, EStateM.bind, Env.write,
        hlookup]
      refine ⟨value, _, rfl, ⟨hm.globals, hm.sink⟩, ?_, ?_⟩
      · rw [Env.map_fst_setLocal, hm.names]
      · rw [Array.toList_setIfInBounds, hm.stack, Env.setLocal_of_slot? (hm.names ▸ hslot),
          List.set_append_left _ _ hbound]
  | none =>
      have hname := hholds.mem_of_not_mem (Frame.slot?_ofNames_eq_none_iff.mp hslot)
      have hlookup := Env.lookup_of_slot?_eq_none (hm.names ▸ hslot)
      simp only [step, globalName_index hname, global?, hpeek, Bind.bind, EStateM.bind,
        Pure.pure, EStateM.pure, Env.write, hlookup, hm.globals]
      cases env.globals.get? name with
      | some old =>
          exact ⟨value, _, rfl, ⟨congrArg (·.assign name value) hm.globals, hm.sink⟩, hm.names,
            hm.stack⟩
      | none => exact .inr ⟨env, rfl, hm.globals, hm.sink⟩

end Instructions

end Machine

open Machine

/-! ## Expressions -/

section Expressions

variable {start : Sink} {names : List String} {pool : Pool}

theorem Expr.perform_code (e : Expr) (frame : Frame) (k : Code) :
    perform pool ((e.code pool frame k).map Prod.fst) =
      perform pool ((e.code pool frame []).map Prod.fst) >>= fun _ =>
        perform pool (k.map Prod.fst) := by
  rw [e.code_eq_append, List.map_append, perform_append]

/-- The code of an expression leaves the expression's value on top of the stack. -/
theorem Expr.simulates {e : Expr} (hholds : pool.Holds (e.constants names)) (pending : List Value) :
    Simulates start (Matches start names pending)
      (perform pool ((e.code pool (.ofNames names) []).map Prod.fst)) e.eval
      (fun _ v => Matches start names (pending ++ [v])) := by
  induction e generalizing pending with
  | literal value pos =>
      rw [Expr.code, List.map_singleton, perform_singleton]
      exact simulates_load hholds
  | var name pos =>
      rw [Expr.code, List.map_singleton, perform_singleton]
      exact simulates_read hholds
  | assign name value ih =>
      obtain ⟨hname, hvalue⟩ := Pool.holds_append.mp hholds
      rw [Expr.code, Expr.perform_code, List.map_singleton, perform_singleton]
      exact (ih hvalue pending).bind fun _ v => simulates_write hname v
  | group inner close ih => exact ih hholds pending
  | unary op operand ih =>
      rw [Expr.code, Expr.perform_code, List.map_singleton, perform_singleton]
      exact (ih hholds pending).bind fun _ a => simulates_unaryOp op a
  | binary op left right ihl ihr =>
      obtain ⟨hleft, hright⟩ := Pool.holds_append.mp hholds
      rw [Expr.code, Expr.perform_code, Expr.perform_code right, List.append_nil, List.map_map]
      refine (ihl hleft pending).bind fun _ a => (ihr hright (pending ++ [a])).bind fun _ b => ?_
      rw [show op.instrs.map (Prod.fst ∘ (·, right.last)) = op.instrs by simp [Function.comp_def]]
      exact simulates_binaryOp op a b

theorem Expr.perform_codeOrNil (e : Option Expr) (frame : Frame) (pos : Pos) (k : Code) :
    perform pool ((Expr.codeOrNil pool frame pos e k).map Prod.fst) =
      perform pool ((Expr.codeOrNil pool frame pos e []).map Prod.fst) >>= fun _ =>
        perform pool (k.map Prod.fst) := by
  rw [Expr.codeOrNil_eq_append, List.map_append, perform_append]

theorem Expr.simulates_codeOrNil {e : Option Expr}
    (hholds : pool.Holds (Expr.constantsOptional names e)) (pos : Pos) (pending : List Value) :
    Simulates start (Matches start names pending)
      (perform pool ((Expr.codeOrNil pool (.ofNames names) pos e []).map Prod.fst))
      (Expr.evalOrNil e) (fun _ v => Matches start names (pending ++ [v])) := by
  cases e with
  | none =>
      rw [Expr.codeOrNil, List.map_singleton, perform_singleton]
      exact .push _
  | some e => exact Expr.simulates hholds pending

end Expressions

/-! ## The ends of statements -/

namespace Machine

section Ends

variable {start : Sink} {names : List String} {pool : Pool}

theorem simulates_drop (value : Value) :
    Simulates start (Matches start names ([] ++ [value])) (step pool .pop) (pure ())
      (fun _ _ => Matches start names []) :=
  .pop_bind (.pure fun _ _ hm => hm)

/-- A write that succeeds appends, and only a sink with a limit refuses one. -/
theorem write_cases (sink : Sink) (bytes : ByteArray) :
    sink.write bytes = (.ok (), ⟨sink.written ++ bytes, sink.limit⟩) ∨
      (sink.limit ≠ none ∧ ∃ reason rest, sink.write bytes = (.error reason, rest)) := by
  obtain ⟨written, limit⟩ := sink
  cases limit with
  | none => exact .inl rfl
  | some limit =>
      rw [Sink.write]
      split
      · exact .inl rfl
      · exact .inr ⟨by simp, _, _, rfl⟩

theorem simulates_print (value : Value) :
    Simulates start (Matches start names ([] ++ [value])) (step pool .print) (Env.print value)
      (fun _ _ => Matches start names []) := by
  refine .pop_bind ?_
  rintro ⟨stack, globals, sink⟩ env hm
  have hsink : sink = ⟨start.written ++ env.printed.toUTF8, start.limit⟩ := hm.sink
  rcases write_cases sink (value.text ++ "\n").toUTF8 with hwrite | ⟨hlimit, reason, rest, hwrite⟩
  · simp only [write, hwrite]
    refine ⟨(), _, rfl, ⟨hm.globals, ?_⟩, hm.names, hm.stack⟩
    rw [hsink, ByteArray.append_assoc, String.append_assoc]
    exact congrArg (fun bytes => Sink.mk (start.written ++ bytes) start.limit)
      String.toByteArray_append.symm
  · simp only [write, hwrite]
    rw [hsink] at hlimit
    exact .inl hlimit

/-- The value on top becomes that of a new block variable where it lies. -/
theorem simulates_declLocal (name : String) (value : Value) :
    Simulates start (Matches start names ([] ++ [value])) (step pool (.declLocal names.length))
      (Env.declareLocal name value) (fun _ _ => Matches start (name :: names) []) := by
  intro m env hm
  have hdepth : m.stack.depth = names.length + 1 := by
    rw [Stack.depth, ← Array.length_toList, hm.stack, ← hm.names]
    simp
  simp only [step, if_pos hdepth]
  refine ⟨(), _, rfl, ⟨hm.globals, hm.sink⟩, by simp [hm.names], ?_⟩
  simpa using hm.stack

theorem simulates_declGlobal {name : String} (hname : .ofValue (.str name) ∈ pool.held)
    (value : Value) :
    Simulates start (Matches start names ([] ++ [value]))
      (step pool (.declGlobal (pool.index (.str name)))) (Env.declareGlobal name value)
      (fun _ _ => Matches start names ([] ++ [value])) := by
  intro m env hm
  have hpeek : peek 0 m = .ok value m :=
    peek_eq (hm.stack.trans (List.append_assoc _ _ _).symm)
  simp only [step, globalName_index hname, global?, Bind.bind, EStateM.bind, Pure.pure,
    EStateM.pure, Env.declareGlobal, hm.globals]
  cases env.globals.get? name with
  | some old => exact .inr ⟨env, rfl, hm.globals, hm.sink⟩
  | none =>
      simp only [EStateM.bind, hpeek]
      exact ⟨(), _, rfl, ⟨congrArg (·.declare name value) hm.globals, hm.sink⟩, hm.names, hm.stack⟩

/-- To drop the values of block variables is to end the variables. -/
theorem perform_replicate_pop {m : Machine} {values : List Value} {count : Nat}
    (hcount : count ≤ values.length) (hstack : m.stack.values.toList = values.reverse) :
    perform pool (List.replicate count .pop) m =
      .ok () { m with
        stack := { m.stack with values := (values.drop count).reverse.toArray } } := by
  induction count generalizing m values with
  | zero =>
      simp [← hstack, Pure.pure, EStateM.pure]
  | succ count ih =>
      obtain ⟨value, values, rfl⟩ := List.exists_cons_of_length_pos (Nat.zero_lt_of_lt hcount)
      rw [List.reverse_cons] at hstack
      rw [List.replicate_succ, perform_cons]
      simp only [step, Bind.bind, EStateM.bind, pop_eq hstack]
      exact ih (Nat.le_of_succ_le_succ hcount) (by simp)

/-- Where a block ends, so do the variables that it has declared. -/
theorem simulates_closeBlock {innermost outer : List String} :
    Simulates start (Matches start (innermost ++ outer) [])
      (perform pool (List.replicate innermost.length .pop)) (Env.closeBlock outer.length)
      (fun _ _ => Matches start outer []) := by
  intro m env hm
  have hlength : env.locals.length = innermost.length + outer.length := by
    rw [← List.length_map Prod.fst, hm.names, List.length_append]
  have hstack : m.stack.values.toList = (env.locals.map Prod.snd).reverse := by simpa using hm.stack
  rw [perform_replicate_pop (by simp [hlength]) hstack]
  refine ⟨(), _, rfl, ⟨hm.globals, hm.sink⟩, ?_, ?_⟩
  · simp [hlength, hm.names]
  · simp [hlength]

end Ends

end Machine

/-! ## Statements -/

section Statements

variable {start : Sink} {pool : Pool}

mutual

/-- Between statements only block variables lie on the stack. -/
theorem Stmt.simulates {blocks : Blocks} : ∀ {s : Stmt},
    (s.isDecl = true → blocks ≠ []) → pool.Holds (s.constants blocks) → s.WellScoped blocks →
    Simulates start (Matches start blocks.names [])
      (perform pool ((s.code pool (.ofNames blocks.names) []).map Prod.fst)) s.eval
      (fun _ _ => Matches start (blocks.after s).names [])
  | .expr value stop, _, hholds, _ => by
      rw [Stmt.code, Stmt.eval, Expr.perform_code, List.map_singleton, perform_singleton]
      exact (Expr.simulates hholds []).bind fun _ v => simulates_drop v
  | .print argument opening stop, _, hholds, _ => by
      rw [Stmt.code, Stmt.eval, Expr.perform_codeOrNil, List.map_singleton, perform_singleton]
      exact (Expr.simulates_codeOrNil hholds opening []).bind fun _ v => simulates_print v
  | .decl name pos initial stop, hblock, hholds, hscoped => by
      obtain ⟨innermost, outer, rfl⟩ := List.exists_cons_of_ne_nil (hblock rfl)
      rw [Stmt.constants_decl hscoped] at hholds
      rw [Stmt.code, Stmt.eval, Expr.perform_codeOrNil, List.map_singleton, perform_singleton,
        Frame.size_ofNames]
      exact (Expr.simulates_codeOrNil hholds pos []).bind fun _ v => simulates_declLocal name v
  | .block inner close, _, hholds, hscoped => by
      -- Evaluation counts the variables outside the block, code has their number from the frame.
      intro m env hm
      have houter : env.locals.length = blocks.names.length := by
        rw [← hm.names, List.length_map]
      have heval : (Stmt.block inner close).eval env =
          (Stmt.evalAll inner >>= fun _ => Env.closeBlock blocks.names.length) env := by
        rw [← houter, Stmt.eval]
        rfl
      rw [Stmt.code, Frame.size_ofNames, heval]
      exact Stmt.simulates_body hholds hscoped m env hm

theorem Stmt.simulates_body {innermost : List String} {outer : Blocks} {close : Pos} :
    ∀ {body : List Stmt}, pool.Holds (Stmt.constantsAll (innermost :: outer) body) →
    Stmt.WellScopedAll (innermost :: outer) body →
    Simulates start (Matches start (Blocks.names (innermost :: outer)) [])
      (perform pool ((Stmt.codeBody pool outer.names.length close
        (.ofNames (Blocks.names (innermost :: outer))) body []).map Prod.fst))
      (Stmt.evalAll body >>= fun _ => Env.closeBlock outer.names.length)
      (fun _ _ => Matches start outer.names [])
  | [], _, _ => by
      have hcount : (Blocks.names (innermost :: outer)).length - outer.names.length =
          innermost.length := by
        simp [Blocks.names]
      rw [Stmt.codeBody, Frame.size_ofNames, hcount, List.append_nil, List.map_replicate]
      exact simulates_closeBlock
  | s :: rest, hholds, hscoped => by
      obtain ⟨hs, hrest⟩ := Pool.holds_append.mp hholds
      obtain ⟨names, hafter⟩ := Blocks.exists_after_cons innermost outer s
      have hscoped' := hscoped.2
      rw [hafter] at hrest hscoped'
      have hfirst := Stmt.simulates (fun _ => List.cons_ne_nil _ _) hs hscoped.1
      rw [Stmt.codeBody, Stmt.evalAll, s.code_eq_append, List.map_append, perform_append,
        Frame.after_ofNames, hafter, bind_assoc]
      rw [hafter] at hfirst
      exact hfirst.bind fun _ _ => Stmt.simulates_body hrest hscoped'

end

theorem Stmt.simulates_top {s : Stmt} (hholds : pool.Holds (s.constants []))
    (hscoped : s.WellScoped []) :
    Simulates start (Matches start [] [])
      (perform pool ((s.topCode pool []).map Prod.fst)) s.evalTop
      (fun _ _ => Matches start [] []) := by
  cases s with
  | decl name pos initial stop =>
      obtain ⟨hname, hinitial⟩ := Pool.holds_append.mp hholds
      have hmem : .ofValue (.str name) ∈ pool.held := hname _ (by simp)
      rw [Stmt.topCode, Stmt.evalTop, Expr.perform_codeOrNil, List.map_cons, List.map_singleton,
        perform_cons, perform_singleton]
      refine (Expr.simulates_codeOrNil hinitial pos []).bind fun _ v => ?_
      rw [← bind_pure_unit (x := Env.declareGlobal name v)]
      exact (simulates_declGlobal hmem v).bind fun _ _ => simulates_drop v
  | expr | print | block =>
      exact Stmt.simulates (fun hdecl => absurd hdecl (by simp [Stmt.isDecl])) hholds hscoped

theorem Stmt.simulates_topAll {body : List Stmt} (hholds : pool.Holds (Stmt.constantsAll [] body))
    (hscoped : Stmt.WellScopedAll [] body) :
    Simulates start (Matches start [] [])
      (perform pool ((body.foldr (·.topCode pool) []).map Prod.fst)) (body.forM Stmt.evalTop)
      (fun _ _ => Matches start [] []) := by
  induction body with
  | nil => exact .pure fun _ _ hm => hm
  | cons s rest ih =>
      obtain ⟨hs, hrest⟩ := Pool.holds_append.mp hholds
      have hscoped' := hscoped.2
      rw [Blocks.after_nil] at hrest hscoped'
      rw [List.foldr_cons, s.topCode_eq_append, List.map_append, perform_append]
      exact (Stmt.simulates_top hs hscoped.1).bind fun _ _ => ih hrest hscoped'

end Statements

/-- Performing the code of a script does what evaluating the script does. -/
theorem Program.simulates {program : Program} {pool : Pool} (hholds : pool.Holds program.constants)
    (hscoped : program.WellScoped) (start : Sink) :
    Simulates start (Matches start [] []) (perform pool (program.instrs pool)) program.eval
      (fun _ _ => Matches start [] []) :=
  Stmt.simulates_topAll hholds hscoped

end Scriptlet
