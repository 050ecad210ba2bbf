import Scriptlet.Proofs.Sinks

/-! # Where runs fail

An instruction that fails does so before it changes a global, and it writes nothing unless it is a
print that the sink takes in part. So a run that fails has done what the instructions before the
failing one do, and its fault points at that instruction.
-/

namespace Scriptlet

/-- Of bytes that cannot be written, a part is. -/
theorem Sink.exists_of_write_eq_error {sink sink' : Sink} {bytes : ByteArray} {reason : String}
    (hwrite : sink.write bytes = (.error reason, sink')) :
    ∃ count < bytes.size, sink'.written = sink.written ++ bytes.extract 0 count := by
  obtain ⟨written, limit⟩ := sink
  cases limit with
  | none => cases hwrite
  | some limit =>
      simp only [write] at hwrite
      split at hwrite
      next => cases hwrite
      next hroom =>
        obtain ⟨_, rfl⟩ := Prod.mk.inj hwrite
        exact ⟨limit - written.size, Nat.lt_of_not_le hroom, rfl⟩

namespace Machine

/-! ## Steps on the stack -/

/-- The two machines differ at most in their stacks. -/
structure SameOutside (m m' : Machine) : Prop where
  globals : m'.globals = m.globals
  sink : m'.sink = m.sink

theorem SameOutside.refl (m : Machine) : SameOutside m m := ⟨rfl, rfl⟩

theorem SameOutside.trans {m m' m'' : Machine} (hfirst : SameOutside m m')
    (hsecond : SameOutside m' m'') : SameOutside m m'' :=
  ⟨hsecond.globals.trans hfirst.globals, hsecond.sink.trans hfirst.sink⟩

/-- A step that changes the stack alone, whether it fails or not. -/
def OnStack {α : Type} (x : Step α) : Prop :=
  ∀ m, match x m with
    | .ok _ m' => SameOutside m m'
    | .error _ m' => SameOutside m m'

/-- A step that has changed the stack alone if it fails. -/
def FailsEarly {α : Type} (x : Step α) : Prop :=
  ∀ m e m', x m = .error e m' → SameOutside m m'

namespace OnStack

variable {α β : Type}

theorem of_ok {x : Step α} (hx : OnStack x) {m m' : Machine} {a : α} (hstep : x m = .ok a m') :
    SameOutside m m' := by
  have hm := hx m
  rw [hstep] at hm
  exact hm

theorem failsEarly {x : Step α} (hx : OnStack x) : FailsEarly x := by
  intro m e m' hstep
  have hm := hx m
  rw [hstep] at hm
  exact hm

/-- What comes after a step on the stack decides what the whole does. -/
theorem failsEarly_bind {x : Step α} {f : α → Step β} (hx : OnStack x)
    (hf : ∀ a, FailsEarly (f a)) : FailsEarly (x >>= f) := by
  intro m e m' hstep
  simp only [Bind.bind, EStateM.bind] at hstep
  cases hxm : x m with
  | ok a m₁ =>
      rw [hxm] at hstep
      exact (hx.of_ok hxm).trans (hf a m₁ e m' hstep)
  | error e₁ m₁ =>
      rw [hxm] at hstep
      obtain ⟨rfl, rfl⟩ := EStateM.Result.error.inj hstep
      exact hx.failsEarly m _ _ hxm

theorem bind {x : Step α} {f : α → Step β} (hx : OnStack x) (hf : ∀ a, OnStack (f a)) :
    OnStack (x >>= f) := by
  intro m
  simp only [Bind.bind, EStateM.bind]
  cases hxm : x m with
  | ok a m₁ =>
      dsimp only
      cases hfa : f a m₁ with
      | ok b m₂ => exact (hx.of_ok hxm).trans ((hf a).of_ok hfa)
      | error e m₂ => exact (hx.of_ok hxm).trans ((hf a).failsEarly m₁ e m₂ hfa)
  | error e m₁ => exact hx.failsEarly m e m₁ hxm

theorem pure (a : α) : OnStack (Pure.pure a) := SameOutside.refl

theorem throw (e : RuntimeError) : OnStack (MonadExcept.throw e : Step α) := SameOutside.refl

theorem push (value : Value) : OnStack (Machine.push value) := by
  intro m
  unfold Machine.push
  cases m.stack.push value <;> exact ⟨rfl, rfl⟩

theorem pop : OnStack Machine.pop := by
  intro m
  unfold Machine.pop
  cases m.stack.pop <;> exact ⟨rfl, rfl⟩

theorem peek (distance : Nat) : OnStack (Machine.peek distance) := by
  intro m
  unfold Machine.peek
  cases m.stack.peek distance <;> exact ⟨rfl, rfl⟩

theorem getSlot (slot : Nat) : OnStack (Machine.getSlot slot) := by
  intro m
  unfold Machine.getSlot
  cases m.stack.get slot <;> exact ⟨rfl, rfl⟩

theorem setSlot (slot : Nat) (value : Value) : OnStack (Machine.setSlot slot value) := by
  intro m
  unfold Machine.setSlot
  cases m.stack.set slot value <;> exact ⟨rfl, rfl⟩

theorem global? (name : String) : OnStack (Machine.global? name) := SameOutside.refl

theorem constant (pool : Pool) (index : Nat) : OnStack (Machine.constant pool index) := by
  unfold Machine.constant
  cases pool.get? index with
  | some value => exact pure value
  | none => exact throw _

theorem globalName (pool : Pool) (index : Nat) : OnStack (Machine.globalName pool index) := by
  apply (constant pool index).bind
  intro value
  cases value with
  | str name => exact pure name
  | _ => exact throw _

theorem result (value : Except ValueError Value) : OnStack (Machine.result value) := by
  cases value with
  | ok value => exact pure value
  | error e => exact throw _

theorem unary (operation : Value → Except ValueError Value) : OnStack (Machine.unary operation) :=
  pop.bind fun _ => (result _).bind push

theorem binary (operation : Value → Value → Except ValueError Value) :
    OnStack (Machine.binary operation) :=
  pop.bind fun _ => pop.bind fun _ => (result _).bind push

end OnStack

theorem failsEarly_setGlobals (change : Globals → Globals) : FailsEarly (setGlobals change) := by
  intro m e m' hstep
  cases hstep

/-! ## Instructions that fail -/

/-- No instruction but a print has any effect outside the stack if it fails. -/
theorem failsEarly_step (pool : Pool) {instr : Instr} (hprint : instr ≠ .print) :
    FailsEarly (step pool instr) := by
  cases instr with
  | print => contradiction
  | constant index => exact ((OnStack.constant pool index).bind .push).failsEarly
  | pushNil | pushTrue | pushFalse => exact (OnStack.push _).failsEarly
  | negate | not => exact (OnStack.unary _).failsEarly
  | add | subtract | multiply | divide | equal | greater | less =>
      exact (OnStack.binary _).failsEarly
  | declGlobal index =>
      refine (OnStack.globalName pool index).failsEarly_bind fun name =>
        (OnStack.global? name).failsEarly_bind fun bound => ?_
      cases bound with
      | some value => exact (OnStack.throw _).failsEarly
      | none => exact (OnStack.peek 0).failsEarly_bind fun value => failsEarly_setGlobals _
  | setGlobal index =>
      refine (OnStack.globalName pool index).failsEarly_bind fun name =>
        (OnStack.peek 0).failsEarly_bind fun value =>
          (OnStack.global? name).failsEarly_bind fun bound => ?_
      cases bound with
      | some old => exact failsEarly_setGlobals _
      | none => exact (OnStack.throw _).failsEarly
  | getGlobal index =>
      refine ((OnStack.globalName pool index).bind fun name =>
        (OnStack.global? name).bind fun bound => ?_).failsEarly
      cases bound with
      | some value => exact .push value
      | none => exact .throw _
  | declLocal slot =>
      intro m e m' hstep
      simp only [step] at hstep
      split at hstep
      · cases hstep
      · obtain ⟨_, rfl⟩ := EStateM.Result.error.inj hstep
        exact .refl m
  | setLocal slot => exact ((OnStack.peek 0).bind fun value => .setSlot slot value).failsEarly
  | getLocal slot => exact ((OnStack.getSlot slot).bind .push).failsEarly
  | pop => exact (OnStack.pop.bind fun _ => .pure ()).failsEarly
  | halt => exact (OnStack.pure ()).failsEarly

/-- The line that an instruction prints has been written in part only. -/
def CutShort (instr : Instr) (before after : Machine) : Prop :=
  instr = .print ∧ ∃ value count, before.stack.values.back? = some value ∧
    count < (value.text ++ "\n").toUTF8.size ∧
    after.sink.written = before.sink.written ++ (value.text ++ "\n").toUTF8.extract 0 count

variable {m m' : Machine} {e : RuntimeError}

theorem pop_eq_ok {value : Value} (hpop : pop m = .ok value m') :
    m.stack.values.back? = some value ∧ SameOutside m m' := by
  refine ⟨?_, OnStack.pop.of_ok hpop⟩
  simp only [pop, Stack.pop] at hpop
  cases hback : m.stack.values.back? with
  | none =>
      rw [hback] at hpop
      cases hpop
  | some top =>
      rw [hback] at hpop
      rw [(EStateM.Result.ok.inj hpop).1]

theorem write_eq_error {text : String} (hwrite : write text m = .error e m') :
    (∃ reason, e = .output reason) ∧ m'.globals = m.globals ∧
      ∃ count < text.toUTF8.size,
        m'.sink.written = m.sink.written ++ text.toUTF8.extract 0 count := by
  obtain ⟨stack, globals, sink⟩ := m
  simp only [write] at hwrite
  cases hsink : sink.write text.toUTF8 with
  | mk result sink' =>
      rw [hsink] at hwrite
      cases result with
      | ok _ => cases hwrite
      | error reason =>
          obtain ⟨rfl, rfl⟩ := EStateM.Result.error.inj hwrite
          exact ⟨⟨reason, rfl⟩, rfl, Sink.exists_of_write_eq_error hsink⟩

/-- An instruction that fails leaves the globals as they were, and the output too, unless the sink
does not take all of what it prints. -/
theorem step_eq_error {pool : Pool} {instr : Instr} (hstep : step pool instr m = .error e m') :
    m'.globals = m.globals ∧ (m'.sink.written = m.sink.written ∨
      (∃ reason, e = .output reason) ∧ CutShort instr m m') := by
  by_cases hprint : instr = .print
  · subst hprint
    simp only [step, Bind.bind, EStateM.bind] at hstep
    cases hpop : pop m with
    | error e₁ m₁ =>
        rw [hpop] at hstep
        obtain ⟨rfl, rfl⟩ := EStateM.Result.error.inj hstep
        have hsame := OnStack.pop.failsEarly m _ _ hpop
        exact ⟨hsame.globals, .inl (congrArg Sink.written hsame.sink)⟩
    | ok value m₁ =>
        rw [hpop] at hstep
        obtain ⟨hback, hsame⟩ := pop_eq_ok hpop
        obtain ⟨houtput, hglobals, count, hcount, hwritten⟩ := write_eq_error hstep
        rw [hsame.sink] at hwritten
        exact ⟨hglobals.trans hsame.globals,
          .inr ⟨houtput, rfl, value, count, hback, hcount, hwritten⟩⟩
  · have hsame := failsEarly_step pool hprint m e m' hstep
    exact ⟨hsame.globals, .inl (congrArg Sink.written hsame.sink)⟩

/-! ## Runs -/

theorem drop_of_getElem? {chunk : Chunk} {offset : Nat} {instr : Instr}
    (hinstr : chunk.code[offset]? = some instr) :
    chunk.code.toList.drop offset = instr :: chunk.code.toList.drop (offset + 1) := by
  rw [← Array.getElem?_toList] at hinstr
  obtain ⟨hlt, rfl⟩ := List.getElem?_eq_some_iff.mp hinstr
  exact List.drop_eq_getElem_cons hlt

namespace Visits

variable {chunk : Chunk} {before : Machine} {offset : Nat}

/-- Every run from a machine is the run from any state that it gets to. -/
theorem run_eq_execute (hbefore : Visits chunk m offset before) :
    m.run chunk = execute chunk offset (chunk.code.toList.drop offset) before := by
  induction hbefore with
  | start => rfl
  | @step offset instr before after _ hinstr hhalt hstep ih =>
      rw [ih, drop_of_getElem? hinstr, execute_cons chunk offset hhalt, hstep]

theorem le_size (hbefore : Visits chunk m offset before) : offset ≤ chunk.code.size := by
  cases hbefore with
  | start => exact Nat.zero_le _
  | step _ hinstr _ _ => exact (Array.getElem?_eq_some_iff.mp hinstr).1

/-- A run that gets to a `halt` ends well there. -/
theorem run_eq_ok (hbefore : Visits chunk m offset before)
    (hhalt : chunk.code[offset]? = some .halt) : m.run chunk = (.ok (), before) := by
  rw [hbefore.run_eq_execute, drop_of_getElem? hhalt, execute]

end Visits

/-- A run that fails has got to the instruction that fails, or behind the last one, and everything
is as it was there, except that a print may have written a part of its line. The fault points at
that instruction, or at the last one, as far as positions are known. A run ends well exactly if it
gets to a `halt`. -/
theorem run_stops_at_failure (chunk : Chunk) (m : Machine) :
    (∀ fault after, m.run chunk = (.error fault, after) →
      ∃ offset before, Visits chunk m offset before ∧ after.globals = before.globals ∧
        ((∃ instr, chunk.code[offset]? = some instr ∧
            step chunk.pool instr before = .error fault.error after ∧
            fault.pos = chunk.positions[offset]?.getD .unknown ∧
            (after.sink.written = before.sink.written ∨ CutShort instr before after)) ∨
          (offset = chunk.code.size ∧ fault.error = .internal .endOfCode ∧
            fault.pos = chunk.positions[offset - 1]?.getD .unknown ∧ after = before))) ∧
      ∀ after, m.run chunk = (.ok (), after) ↔
        ∃ offset, Visits chunk m offset after ∧ chunk.code[offset]? = some .halt := by
  have hends := run_ends chunk m
  refine ⟨fun fault after hrun => ?_, fun after => ⟨fun hrun => ?_, ?_⟩⟩
  · rw [hrun] at hends
    cases hends with
    | @failure offset instr before _ e hbefore hinstr hstep =>
        obtain ⟨hglobals, hwritten⟩ := step_eq_error hstep
        exact ⟨offset, before, hbefore, hglobals,
          .inl ⟨instr, hinstr, hstep, rfl, hwritten.imp_right And.right⟩⟩
    | @outOfCode offset _ hbefore hend =>
        have hsize := Nat.le_antisymm hbefore.le_size (Array.getElem?_eq_none_iff.mp hend)
        exact ⟨offset, after, hbefore, rfl, .inr ⟨hsize, rfl, rfl, rfl⟩⟩
  · rw [hrun] at hends
    cases hends with
    | @halt offset _ hbefore hinstr => exact ⟨offset, hbefore, hinstr⟩
  · rintro ⟨offset, hbefore, hhalt⟩
    exact hbefore.run_eq_ok hhalt

/-- A print that can write two characters, in code without positions. -/
theorem run_stops_at_failure_print : ∃ fault after,
    run ⟨#[.pushTrue, .print, .halt], #[], .empty⟩ (init 256 (some 2)) = (.error fault, after) ∧
      after.sink.written = "tr".toUTF8 ∧ fault.pos = .unknown ∧
      ∃ offset before, Visits ⟨#[.pushTrue, .print, .halt], #[], .empty⟩ (init 256 (some 2)) offset
        before ∧ after.globals = before.globals := by
  obtain ⟨hfault, _⟩ := run_stops_at_failure ⟨#[.pushTrue, .print, .halt], #[], .empty⟩
    (init 256 (some 2))
  obtain ⟨offset, before, hbefore, hglobals, _⟩ := hfault _ _ rfl
  exact ⟨_, _, rfl, by decide, by decide, offset, before, hbefore, hglobals⟩

end Machine

end Scriptlet
