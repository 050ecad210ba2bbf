import Scriptlet.Proofs.Running

/-! # Runs and sinks

Printing is the only instruction that knows of the sink. So a run that succeeds with one sink also
succeeds with any other that has room for what is written, and writes the same.
-/

namespace Scriptlet

/-- Bytes can be written exactly if they fit, and then they follow what was written before. -/
theorem Sink.write_eq_ok_iff {sink sink' : Sink} {bytes : ByteArray} :
    sink.write bytes = (.ok (), sink') ↔
      (∀ limit, sink.limit = some limit → bytes.size ≤ limit - sink.written.size) ∧
        sink' = ⟨sink.written ++ bytes, sink.limit⟩ := by
  obtain ⟨written, limit⟩ := sink
  cases limit with
  | none => simp [write, eq_comm]
  | some limit =>
      by_cases hroom : bytes.size ≤ limit - written.size
      · simp [write, hroom, eq_comm]
      · simp [write, hroom]

namespace Machine

/-- The machine with another sink. -/
def withSink (m : Machine) (sink : Sink) : Machine := { m with sink }

/-- A step that neither looks at the sink nor changes it. -/
def Blind {α : Type} (x : Step α) : Prop :=
  ∀ m sink, x (m.withSink sink) =
    match x m with
    | .ok a m' => .ok a (m'.withSink sink)
    | .error e m' => .error e (m'.withSink sink)

namespace Blind

variable {α β : Type}

theorem bind {x : Step α} {f : α → Step β} (hx : Blind x) (hf : ∀ a, Blind (f a)) :
    Blind (x >>= f) := by
  intro m sink
  simp only [Bind.bind, EStateM.bind, hx m sink]
  cases x m with
  | ok a m' => exact hf a m' sink
  | error e m' => rfl

theorem pure (a : α) : Blind (Pure.pure a) := fun _ _ => rfl

theorem throw (e : RuntimeError) : Blind (MonadExcept.throw e : Step α) := fun _ _ => rfl

theorem push (value : Value) : Blind (Machine.push value) := by
  intro m sink
  simp only [Machine.push, withSink]
  cases m.stack.push value <;> rfl

theorem pop : Blind Machine.pop := by
  intro m sink
  simp only [Machine.pop, withSink]
  cases m.stack.pop <;> rfl

theorem peek (distance : Nat) : Blind (Machine.peek distance) := by
  intro m sink
  simp only [Machine.peek, withSink]
  cases m.stack.peek distance <;> rfl

theorem getSlot (slot : Nat) : Blind (Machine.getSlot slot) := by
  intro m sink
  simp only [Machine.getSlot, withSink]
  cases m.stack.get slot <;> rfl

theorem setSlot (slot : Nat) (value : Value) : Blind (Machine.setSlot slot value) := by
  intro m sink
  simp only [Machine.setSlot, withSink]
  cases m.stack.set slot value <;> rfl

theorem global? (name : String) : Blind (Machine.global? name) := fun _ _ => rfl

theorem setGlobals (change : Globals → Globals) : Blind (Machine.setGlobals change) :=
  fun _ _ => rfl

theorem constant (pool : Pool) (index : Nat) : Blind (Machine.constant pool index) := by
  unfold Machine.constant
  cases pool.get? index with
  | some value => exact pure value
  | none => exact throw _

theorem globalName (pool : Pool) (index : Nat) : Blind (Machine.globalName pool index) := by
  apply (constant pool index).bind
  intro value
  cases value with
  | str name => exact pure name
  | _ => exact throw _

theorem result (value : Except ValueError Value) : Blind (Machine.result value) := by
  cases value with
  | ok value => exact pure value
  | error e => exact throw _

theorem unary (operation : Value → Except ValueError Value) : Blind (Machine.unary operation) :=
  pop.bind fun _ => (result _).bind push

theorem binary (operation : Value → Value → Except ValueError Value) :
    Blind (Machine.binary operation) :=
  pop.bind fun _ => pop.bind fun _ => (result _).bind push

theorem sink_eq {x : Step α} (hx : Blind x) {m m' : Machine} {a : α} (hstep : x m = .ok a m') :
    m'.sink = m.sink := by
  have hsame : x m = _ := hx m m.sink
  rw [hstep] at hsame
  have hm : m' = m'.withSink m.sink := (EStateM.Result.ok.inj hsame).2
  rw [hm]
  rfl

end Blind

theorem blind_step (pool : Pool) {instr : Instr} (hprint : instr ≠ .print) :
    Blind (step pool instr) := by
  cases instr with
  | print => contradiction
  | constant index => exact (Blind.constant pool index).bind .push
  | pushNil | pushTrue | pushFalse => exact .push _
  | negate | not => exact .unary _
  | add | subtract | multiply | divide | equal | greater | less => exact .binary _
  | declGlobal index =>
      refine (Blind.globalName pool index).bind fun name => ?_
      refine (Blind.global? name).bind fun bound => ?_
      cases bound with
      | some value => exact .throw _
      | none => exact (Blind.peek 0).bind fun value => .setGlobals _
  | setGlobal index =>
      refine (Blind.globalName pool index).bind fun name => (Blind.peek 0).bind fun value =>
        (Blind.global? name).bind fun bound => ?_
      cases bound with
      | some old => exact .setGlobals _
      | none => exact .throw _
  | getGlobal index =>
      refine (Blind.globalName pool index).bind fun name => ?_
      refine (Blind.global? name).bind fun bound => ?_
      cases bound with
      | some value => exact .push value
      | none => exact .throw _
  | declLocal slot =>
      intro m sink
      by_cases hdepth : m.stack.depth = slot + 1
      · simp [step, withSink, hdepth]
      · simp [step, withSink, hdepth]
  | setLocal slot => exact (Blind.peek 0).bind fun value => .setSlot slot value
  | getLocal slot => exact (Blind.getSlot slot).bind .push
  | pop => exact Blind.pop.bind fun _ => .pure ()
  | halt => exact .pure ()

/-! ## Other limits -/

/-- The machine with another limit for its output. -/
def relimit (m : Machine) (limit : Option Nat) : Machine :=
  m.withSink ⟨m.sink.written, limit⟩

/-- There is room for what the machine has written. -/
def HasRoom (m : Machine) (limit : Option Nat) : Prop :=
  ∀ size, limit = some size → m.sink.written.size ≤ size

variable {m m' : Machine} {limit : Option Nat}

theorem HasRoom.mono (hroom : m'.HasRoom limit)
    (hle : m.sink.written.size ≤ m'.sink.written.size) : m.HasRoom limit :=
  fun size hsize => Nat.le_trans hle (hroom size hsize)

theorem write_relimit {text : String} (hwrite : write text m = .ok () m')
    (hroom : m'.HasRoom limit) :
    write text (m.relimit limit) = .ok () (m'.relimit limit) ∧
      m.sink.written.size ≤ m'.sink.written.size := by
  obtain ⟨stack, globals, sink⟩ := m
  simp only [write] at hwrite
  cases hsink : sink.write text.toUTF8 with
  | mk result sink' =>
      cases result with
      | error reason =>
          rw [hsink] at hwrite
          cases hwrite
      | ok result =>
          rw [hsink] at hwrite
          obtain ⟨_, rfl⟩ := EStateM.Result.ok.inj hwrite
          obtain ⟨_, rfl⟩ := Sink.write_eq_ok_iff.mp hsink
          have hle : sink.written.size ≤ (sink.written ++ text.toUTF8).size := by
            simp [ByteArray.size_append]
          have hfits : ∀ size, limit = some size →
              text.toUTF8.size ≤ size - sink.written.size := by
            intro size hsize
            have hall := hroom size hsize
            simp only [ByteArray.size_append] at hall
            omega
          have hother : Sink.write ⟨sink.written, limit⟩ text.toUTF8 =
              (.ok (), ⟨sink.written ++ text.toUTF8, limit⟩) :=
            Sink.write_eq_ok_iff.mpr ⟨hfits, rfl⟩
          exact ⟨by simp only [write, relimit, withSink, hother], hle⟩

theorem step_relimit {pool : Pool} {instr : Instr} (hstep : step pool instr m = .ok () m')
    (hroom : m'.HasRoom limit) :
    step pool instr (m.relimit limit) = .ok () (m'.relimit limit) ∧
      m.sink.written.size ≤ m'.sink.written.size := by
  by_cases hprint : instr = .print
  · subst hprint
    simp only [step, Bind.bind, EStateM.bind] at hstep ⊢
    rw [relimit, Blind.pop]
    cases hpop : pop m with
    | error e m₁ =>
        rw [hpop] at hstep
        cases hstep
    | ok value m₁ =>
        rw [hpop] at hstep
        rw [← Blind.pop.sink_eq hpop]
        exact write_relimit hstep hroom
  · have hblind := blind_step pool hprint
    have hsink := hblind.sink_eq hstep
    rw [relimit, relimit, hblind, hstep, hsink]
    exact ⟨rfl, Nat.le_refl _⟩

theorem execute_relimit {chunk : Chunk} {offset : Nat} {instrs : List Instr}
    (hexecute : execute chunk offset instrs m = (.ok (), m')) (hroom : m'.HasRoom limit) :
    execute chunk offset instrs (m.relimit limit) = (.ok (), m'.relimit limit) ∧
      m.sink.written.size ≤ m'.sink.written.size := by
  induction instrs generalizing offset m with
  | nil => cases hexecute
  | cons instr rest ih =>
      by_cases hhalt : instr = .halt
      · subst hhalt
        obtain ⟨_, rfl⟩ := Prod.mk.inj hexecute
        exact ⟨rfl, Nat.le_refl _⟩
      · rw [execute_cons chunk offset hhalt] at hexecute ⊢
        cases hstep : step chunk.pool instr m with
        | error e m₁ =>
            rw [hstep] at hexecute
            cases hexecute
        | ok result m₁ =>
            rw [hstep] at hexecute
            obtain ⟨hrest, hle⟩ := ih hexecute
            obtain ⟨hfirst, hle'⟩ := step_relimit hstep (hroom.mono hle)
            rw [hfirst]
            exact ⟨hrest, Nat.le_trans hle' hle⟩

/-- A run that succeeds does so with any limit that its output keeps. -/
theorem run_relimit {chunk : Chunk} (hrun : m.run chunk = (.ok (), m')) (hroom : m'.HasRoom limit) :
    (m.relimit limit).run chunk = (.ok (), m'.relimit limit) :=
  (execute_relimit hrun hroom).1

end Machine

end Scriptlet
