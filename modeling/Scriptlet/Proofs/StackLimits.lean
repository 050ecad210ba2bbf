import Mathlib.Order.Bounds.Defs
import Scriptlet.Proofs.Faults

/-! # The limit of the stack

The limit on the depth of the stack is a threshold and nothing else. Without a limit a run gets to
some greatest depth. With any limit that is as great, it does the same, and with any smaller one it
ends in an overflow on the way.
-/

namespace Scriptlet.Machine

/-- The machine with another limit for its stack. -/
def withLimit (m : Machine) (limit : Nat) : Machine :=
  { m with stack := { m.stack with limit } }

@[simp] theorem depth_withLimit (m : Machine) (limit : Nat) :
    (m.withLimit limit).stack.depth = m.stack.depth := rfl

/-! ## Steps under a limit -/

/-- How a step ends under a limit if it ends as `ideal` without one: the same way, unless the stack
gets too deep. -/
inductive Capped {α : Type} (limit : Nat) :
    EStateM.Result RuntimeError Machine α → EStateM.Result RuntimeError Machine α → Prop
  | error {e : RuntimeError} {m : Machine} :
      Capped limit (.error e m) (.error e (m.withLimit limit))
  | fits {a : α} {m : Machine} (hdepth : m.stack.depth ≤ limit) :
      Capped limit (.ok a m) (.ok a (m.withLimit limit))
  | overflow {a : α} {m stopped : Machine} (hdepth : limit < m.stack.depth) :
      Capped limit (.ok a m) (.error (.stackOverflow limit) stopped)

/-- A step for which the limit of the stack is a threshold. -/
def Thresholded {α : Type} (x : Step α) : Prop :=
  ∀ m : Machine, ∃ ideal, ∀ limit, m.stack.depth ≤ limit →
    Capped limit ideal (x (m.withLimit limit))

/-- A step that pushes nothing. The limit does not matter for it. -/
def PushesNothing {α : Type} (x : Step α) : Prop :=
  ∀ m limit, match x m with
    | .ok a m' =>
      x (m.withLimit limit) = .ok a (m'.withLimit limit) ∧ m'.stack.depth ≤ m.stack.depth
    | .error e m' => x (m.withLimit limit) = .error e (m'.withLimit limit)

namespace PushesNothing

variable {α β : Type}

theorem thresholded {x : Step α} (hx : PushesNothing x) : Thresholded x := by
  intro m
  refine ⟨x m, fun limit hlimit => ?_⟩
  have hm := hx m limit
  cases hxm : x m with
  | ok a m' =>
      rw [hxm] at hm
      rw [hm.1]
      exact .fits (Nat.le_trans hm.2 hlimit)
  | error e m' =>
      rw [hxm] at hm
      rw [hm]
      exact .error

/-- In every instruction that pushes a value, the push comes last. -/
theorem thresholded_bind {x : Step α} {f : α → Step β} (hx : PushesNothing x)
    (hf : ∀ a, Thresholded (f a)) : Thresholded (x >>= f) := by
  intro m
  simp only [Bind.bind, EStateM.bind]
  cases hxm : x m with
  | ok a m' =>
      obtain ⟨ideal, hideal⟩ := hf a m'
      refine ⟨ideal, fun limit hlimit => ?_⟩
      have hm := hx m limit
      rw [hxm] at hm
      rw [hm.1]
      exact hideal limit (Nat.le_trans hm.2 hlimit)
  | error e m' =>
      refine ⟨.error e m', fun limit _ => ?_⟩
      have hm := hx m limit
      rw [hxm] at hm
      rw [hm]
      exact .error

theorem bind {x : Step α} {f : α → Step β} (hx : PushesNothing x)
    (hf : ∀ a, PushesNothing (f a)) : PushesNothing (x >>= f) := by
  intro m limit
  have hm := hx m limit
  simp only [Bind.bind, EStateM.bind]
  cases hxm : x m with
  | ok a m' =>
      rw [hxm] at hm
      rw [hm.1]
      dsimp only
      have hm' := hf a m' limit
      cases hfa : f a m' with
      | ok b m'' =>
          rw [hfa] at hm'
          exact ⟨hm'.1, Nat.le_trans hm'.2 hm.2⟩
      | error e m'' =>
          rw [hfa] at hm'
          exact hm'
  | error e m' =>
      rw [hxm] at hm
      rw [hm]

theorem pure (a : α) : PushesNothing (Pure.pure a) := fun _ _ => ⟨rfl, Nat.le_refl _⟩

theorem throw (e : RuntimeError) : PushesNothing (MonadExcept.throw e : Step α) := fun _ _ => rfl

theorem pop : PushesNothing Machine.pop := by
  intro m limit
  simp only [Machine.pop, withLimit, Stack.pop]
  cases m.stack.values.back? with
  | none => rfl
  | some top => exact ⟨rfl, by simp [Stack.depth]⟩

theorem getSlot (slot : Nat) : PushesNothing (Machine.getSlot slot) := by
  intro m limit
  simp only [Machine.getSlot, withLimit, Stack.get]
  cases m.stack.values[slot]? with
  | none => rfl
  | some value => exact ⟨rfl, Nat.le_refl _⟩

theorem peek (distance : Nat) : PushesNothing (Machine.peek distance) := by
  intro m limit
  simp only [Machine.peek, withLimit, Stack.peek, Stack.get]
  by_cases hdistance : distance < m.stack.values.size
  · simp only [if_pos hdistance]
    cases m.stack.values[m.stack.values.size - 1 - distance]? with
    | none => simp [hdistance]
    | some value => simp [hdistance]
  · simp [hdistance]

theorem setSlot (slot : Nat) (value : Value) : PushesNothing (Machine.setSlot slot value) := by
  intro m limit
  simp only [Machine.setSlot, withLimit, Stack.set]
  by_cases hslot : slot < m.stack.values.size
  · simp [hslot, Stack.depth]
  · simp [hslot]

theorem write (text : String) : PushesNothing (Machine.write text) := by
  rintro ⟨stack, globals, sink⟩ limit
  simp only [Machine.write, withLimit]
  rcases sink.write text.toUTF8 with ⟨_ | _, sink'⟩
  · rfl
  · exact ⟨rfl, Nat.le_refl _⟩

theorem global? (name : String) : PushesNothing (Machine.global? name) :=
  fun _ _ => ⟨rfl, Nat.le_refl _⟩

theorem setGlobals (change : Globals → Globals) : PushesNothing (Machine.setGlobals change) :=
  fun _ _ => ⟨rfl, Nat.le_refl _⟩

theorem constant (pool : Pool) (index : Nat) : PushesNothing (Machine.constant pool index) := by
  unfold Machine.constant
  cases pool.get? index with
  | some value => exact pure value
  | none => exact throw _

theorem globalName (pool : Pool) (index : Nat) : PushesNothing (Machine.globalName pool index) := by
  apply (constant pool index).bind
  intro value
  cases value with
  | str name => exact pure name
  | _ => exact throw _

theorem result (value : Except ValueError Value) : PushesNothing (Machine.result value) := by
  cases value with
  | ok value => exact pure value
  | error e => exact throw _

end PushesNothing

namespace Thresholded

theorem push (value : Value) : Thresholded (Machine.push value) := by
  intro m
  let pushed : Machine := { m with stack := { m.stack with values := m.stack.values.push value } }
  have hdepth : pushed.stack.depth = m.stack.depth + 1 := Array.size_push _
  refine ⟨.ok () pushed, fun limit hlimit => ?_⟩
  by_cases hroom : m.stack.values.size < limit
  · have hpush : Machine.push value (m.withLimit limit) = .ok () (pushed.withLimit limit) := by
      simp [Machine.push, Stack.push, withLimit, hroom, pushed]
    rw [hpush]
    exact .fits (hdepth ▸ hroom)
  · have hpush : Machine.push value (m.withLimit limit) =
        .error (.stackOverflow limit) (m.withLimit limit) := by
      simp [Machine.push, Stack.push, withLimit, hroom]
    rw [hpush]
    exact .overflow (hdepth ▸ Nat.lt_succ_of_le (Nat.le_of_not_lt hroom))

theorem unary (operation : Value → Except ValueError Value) :
    Thresholded (Machine.unary operation) :=
  PushesNothing.pop.thresholded_bind fun _ => (PushesNothing.result _).thresholded_bind push

theorem binary (operation : Value → Value → Except ValueError Value) :
    Thresholded (Machine.binary operation) :=
  PushesNothing.pop.thresholded_bind fun _ => PushesNothing.pop.thresholded_bind fun _ =>
    (PushesNothing.result _).thresholded_bind push

end Thresholded

/-- For every instruction the limit is a threshold. -/
theorem thresholded_step (pool : Pool) (instr : Instr) : Thresholded (step pool instr) := by
  cases instr with
  | constant index => exact (PushesNothing.constant pool index).thresholded_bind .push
  | pushNil | pushTrue | pushFalse => exact .push _
  | negate | not => exact .unary _
  | add | subtract | multiply | divide | equal | greater | less => exact .binary _
  | declGlobal index =>
      refine ((PushesNothing.globalName pool index).bind fun name =>
        (PushesNothing.global? name).bind fun bound => ?_).thresholded
      cases bound with
      | some value => exact .throw _
      | none => exact (PushesNothing.peek 0).bind fun value => .setGlobals _
  | setGlobal index =>
      refine ((PushesNothing.globalName pool index).bind fun name =>
        (PushesNothing.peek 0).bind fun value =>
          (PushesNothing.global? name).bind fun bound => ?_).thresholded
      cases bound with
      | some old => exact .setGlobals _
      | none => exact .throw _
  | getGlobal index =>
      refine (PushesNothing.globalName pool index).thresholded_bind fun name =>
        (PushesNothing.global? name).thresholded_bind fun bound => ?_
      cases bound with
      | some value => exact .push value
      | none => exact (PushesNothing.throw _).thresholded
  | declLocal slot =>
      apply PushesNothing.thresholded
      intro m limit
      by_cases hdepth : m.stack.depth = slot + 1
      · simp [step, hdepth]
      · simp [step, hdepth]
  | setLocal slot =>
      exact ((PushesNothing.peek 0).bind fun value => .setSlot slot value).thresholded
  | getLocal slot => exact (PushesNothing.getSlot slot).thresholded_bind .push
  | print => exact (PushesNothing.pop.bind fun value => .write _).thresholded
  | pop => exact (PushesNothing.pop.bind fun _ => .pure ()).thresholded
  | halt => exact (PushesNothing.pure ()).thresholded

/-! ## Output -/

/-- What the first machine has written comes first in what the second has. -/
def WritesOn (m m' : Machine) : Prop :=
  ∃ more, m'.sink.written = m.sink.written ++ more

theorem WritesOn.of_eq {m m' : Machine} (hwritten : m'.sink.written = m.sink.written) :
    WritesOn m m' :=
  ⟨.empty, by rw [hwritten, ByteArray.append_empty]⟩

theorem WritesOn.trans {m m' m'' : Machine} (hfirst : WritesOn m m') (hsecond : WritesOn m' m'') :
    WritesOn m m'' := by
  rcases hfirst with ⟨first, hfirst⟩
  rcases hsecond with ⟨second, hsecond⟩
  exact ⟨first ++ second, by rw [hsecond, hfirst, ByteArray.append_assoc]⟩

section Written

variable {pool : Pool} {instr : Instr} {m m' : Machine}

theorem written_of_write {text : String} (hwrite : write text m = .ok () m') :
    m'.sink.written = m.sink.written ++ text.toUTF8 := by
  obtain ⟨stack, globals, sink⟩ := m
  simp only [write] at hwrite
  cases hsink : sink.write text.toUTF8 with
  | mk result sink' =>
      rw [hsink] at hwrite
      cases result with
      | error reason => cases hwrite
      | ok _ =>
          obtain ⟨_, rfl⟩ := EStateM.Result.ok.inj hwrite
          obtain ⟨_, rfl⟩ := Sink.write_eq_ok_iff.mp hsink
          rfl

theorem writesOn_of_step (hstep : step pool instr m = .ok () m') : WritesOn m m' := by
  by_cases hprint : instr = .print
  · subst hprint
    simp only [step, Bind.bind, EStateM.bind] at hstep
    cases hpop : pop m with
    | error e m₁ =>
        rw [hpop] at hstep
        cases hstep
    | ok value m₁ =>
        rw [hpop] at hstep
        have hwritten := written_of_write hstep
        rw [Blind.pop.sink_eq hpop] at hwritten
        exact ⟨_, hwritten⟩
  · exact .of_eq (congrArg Sink.written ((blind_step pool hprint).sink_eq hstep))

theorem writesOn_of_step_error {e : RuntimeError} (hstep : step pool instr m = .error e m') :
    WritesOn m m' := by
  rcases (step_eq_error hstep).2 with hwritten | ⟨_, _, _, _, _, _, hwritten⟩
  · exact .of_eq hwritten
  · exact ⟨_, hwritten⟩

/-- An instruction that overflows the stack writes nothing. -/
theorem written_of_stackOverflow {limit : Nat}
    (hstep : step pool instr m = .error (.stackOverflow limit) m') :
    m'.sink.written = m.sink.written := by
  rcases (step_eq_error hstep).2 with hwritten | ⟨⟨_, houtput⟩, _⟩
  · exact hwritten
  · contradiction

end Written

/-! ## Runs under a limit -/

/-- The greatest depth of the stack while instructions are executed, up to the one that fails or
ends the run. -/
def highWater (pool : Pool) : List Instr → Machine → Nat
  | [], m | .halt :: _, m => m.stack.depth
  | instr :: rest, m =>
    match step pool instr m with
    | .ok _ m' => max m.stack.depth (highWater pool rest m')
    | .error _ _ => m.stack.depth

theorem highWater_cons (pool : Pool) {instr : Instr} (hhalt : instr ≠ .halt) (rest : List Instr)
    (m : Machine) :
    highWater pool (instr :: rest) m =
      match step pool instr m with
      | .ok _ m' => max m.stack.depth (highWater pool rest m')
      | .error _ _ => m.stack.depth := by
  cases instr with
  | halt => contradiction
  | _ => rfl

theorem depth_le_highWater (pool : Pool) (instrs : List Instr) (m : Machine) :
    m.stack.depth ≤ highWater pool instrs m := by
  cases instrs with
  | nil => exact Nat.le_refl _
  | cons instr rest =>
      by_cases hhalt : instr = .halt
      · subst hhalt
        exact Nat.le_refl _
      · rw [highWater_cons pool hhalt]
        split
        · exact Nat.le_max_left _ _
        · exact Nat.le_refl _

/-- What executing instructions from `m` comes to under every limit. From the threshold on it ends
with `result` and `final`. -/
structure Threshold (chunk : Chunk) (offset : Nat) (instrs : List Instr) (m : Machine)
    (threshold : Nat) (result : Except Fault Unit) (final : Machine) : Prop where
  depth_le : m.stack.depth ≤ threshold
  enough : ∀ limit, threshold ≤ limit →
    execute chunk offset instrs (m.withLimit limit) = (result, final.withLimit limit)
  reached : ∀ limit, threshold ≤ limit →
    highWater chunk.pool instrs (m.withLimit limit) = threshold
  tooLow : ∀ limit, m.stack.depth ≤ limit → limit < threshold → ∃ pos stopped,
    execute chunk offset instrs (m.withLimit limit) =
        (.error ⟨.stackOverflow limit, pos⟩, stopped) ∧
      stopped.WritesOn final
  writesOn : m.WritesOn final

section Execute

variable {chunk : Chunk} {offset : Nat} {instr : Instr} {rest : List Instr} {m m' : Machine}
  {threshold : Nat} {result : Except Fault Unit} {final : Machine}

/-- Where execution ends at once, the depth that the stack has is enough. -/
theorem Threshold.of_end {instrs : List Instr}
    (hexecute : ∀ limit, m.stack.depth ≤ limit →
      execute chunk offset instrs (m.withLimit limit) = (result, final.withLimit limit))
    (hdepth : ∀ limit, m.stack.depth ≤ limit →
      highWater chunk.pool instrs (m.withLimit limit) = m.stack.depth)
    (hwrites : m.WritesOn final) :
    Threshold chunk offset instrs m m.stack.depth result final where
  depth_le := Nat.le_refl _
  enough := hexecute
  reached := hdepth
  tooLow _ hle hlt := absurd hle (Nat.not_le_of_lt hlt)
  writesOn := hwrites

/-- One instruction more in front, which does not fail without a limit. -/
theorem Threshold.cons (hhalt : instr ≠ .halt)
    (hstep : ∀ limit, m.stack.depth ≤ limit →
      Capped limit (.ok () m') (step chunk.pool instr (m.withLimit limit)))
    (hrest : Threshold chunk (offset + 1) rest m' threshold result final) :
    Threshold chunk offset (instr :: rest) m (max m.stack.depth threshold) result final := by
  have hfits : ∀ limit, m.stack.depth ≤ limit → m'.stack.depth ≤ limit →
      step chunk.pool instr (m.withLimit limit) = .ok () (m'.withLimit limit) := by
    intro limit hlimit hdepth
    have hcapped := hstep limit hlimit
    generalize step chunk.pool instr (m.withLimit limit) = actual at hcapped
    cases hcapped with
    | fits => rfl
    | overflow hbeyond => exact absurd hdepth (Nat.not_le_of_lt hbeyond)
  have hwrites : m.WritesOn m' := by
    have hroom := hfits _ (Nat.le_max_left m.stack.depth m'.stack.depth) (Nat.le_max_right _ _)
    obtain ⟨more, hmore⟩ := writesOn_of_step hroom
    exact ⟨more, hmore⟩
  constructor
  · exact Nat.le_max_left _ _
  · intro limit hlimit
    obtain ⟨hm, hthreshold⟩ := Nat.max_le.mp hlimit
    rw [execute_cons chunk offset hhalt, hfits limit hm (Nat.le_trans hrest.depth_le hthreshold)]
    exact hrest.enough limit hthreshold
  · intro limit hlimit
    obtain ⟨hm, hthreshold⟩ := Nat.max_le.mp hlimit
    rw [highWater_cons chunk.pool hhalt, hfits limit hm (Nat.le_trans hrest.depth_le hthreshold)]
    exact congrArg (max m.stack.depth) (hrest.reached limit hthreshold)
  · intro limit hm hlimit
    have hthreshold : limit < threshold := by omega
    rw [execute_cons chunk offset hhalt]
    by_cases hdepth : m'.stack.depth ≤ limit
    · rw [hfits limit hm hdepth]
      exact hrest.tooLow limit hdepth hthreshold
    · -- The instruction itself makes the stack too deep.
      have hcapped := hstep limit hm
      cases hactual : step chunk.pool instr (m.withLimit limit) with
      | ok a m₁ =>
          rw [hactual] at hcapped
          cases hcapped with
          | fits hfit => exact absurd hfit hdepth
      | error e stopped =>
          rw [hactual] at hcapped
          cases hcapped with
          | overflow =>
              refine ⟨_, stopped, rfl, ?_⟩
              have hsame : m.sink.written = stopped.sink.written :=
                (written_of_stackOverflow hactual).symm
              exact ((WritesOn.of_eq hsame).trans hwrites).trans hrest.writesOn
  · exact hwrites.trans hrest.writesOn

/-- An instruction that fails without a limit fails under every one. -/
theorem threshold_of_error {e : RuntimeError} (hhalt : instr ≠ .halt)
    (hstep : ∀ limit, m.stack.depth ≤ limit →
      Capped limit (.error e m') (step chunk.pool instr (m.withLimit limit))) :
    Threshold chunk offset (instr :: rest) m m.stack.depth
      (.error ⟨e, chunk.posAt offset⟩) m' := by
  have herror : ∀ limit, m.stack.depth ≤ limit →
      step chunk.pool instr (m.withLimit limit) = .error e (m'.withLimit limit) := by
    intro limit hlimit
    have hcapped := hstep limit hlimit
    generalize step chunk.pool instr (m.withLimit limit) = actual at hcapped
    cases hcapped with
    | error => rfl
  apply Threshold.of_end
  · intro limit hlimit
    rw [execute_cons chunk offset hhalt, herror limit hlimit]
  · intro limit hlimit
    rw [highWater_cons chunk.pool hhalt, herror limit hlimit]
    rfl
  · obtain ⟨more, hmore⟩ := writesOn_of_step_error (herror _ (Nat.le_refl _))
    exact ⟨more, hmore⟩

variable (chunk) in
/-- Whatever is executed, the limit is a threshold. -/
theorem exists_threshold (instrs : List Instr) (offset : Nat) (m : Machine) :
    ∃ threshold result final, Threshold chunk offset instrs m threshold result final := by
  induction instrs generalizing offset m with
  | nil => exact ⟨_, _, m, .of_end (fun _ _ => rfl) (fun _ _ => rfl) (.of_eq rfl)⟩
  | cons instr rest ih =>
      by_cases hhalt : instr = .halt
      · subst hhalt
        exact ⟨_, _, m, .of_end (fun _ _ => rfl) (fun _ _ => rfl) (.of_eq rfl)⟩
      · obtain ⟨ideal, hstep⟩ := thresholded_step chunk.pool instr m
        cases ideal with
        | error e m' => exact ⟨_, _, m', threshold_of_error hhalt hstep⟩
        | ok result m' =>
            obtain ⟨threshold, result, final, hrest⟩ := ih (offset + 1) m'
            exact ⟨_, result, final, hrest.cons hhalt hstep⟩

end Execute

/-! ## The depths of a run -/

section Depths

variable {chunk : Chunk} {m before : Machine} {offset : Nat}

/-- A run never gets deeper later than it gets in all. -/
theorem Visits.highWater_le (hbefore : Visits chunk m offset before) :
    highWater chunk.pool (chunk.code.toList.drop offset) before ≤
      highWater chunk.pool chunk.code.toList { m with stack := m.stack.clear } := by
  induction hbefore with
  | start => exact Nat.le_refl _
  | step _ hinstr hhalt hstep ih =>
      rw [drop_of_getElem? hinstr, highWater_cons chunk.pool hhalt, hstep] at ih
      exact Nat.le_trans (Nat.le_max_right _ _) ih

/-- Somewhere a run is as deep as it gets. -/
theorem Visits.exists_highWater {rest : List Instr} (hbefore : Visits chunk m offset before)
    (hrest : chunk.code.toList.drop offset = rest) :
    ∃ offset' before', Visits chunk m offset' before' ∧
      before'.stack.depth = highWater chunk.pool rest before := by
  induction rest generalizing offset before with
  | nil => exact ⟨offset, before, hbefore, rfl⟩
  | cons instr rest ih =>
      by_cases hhalt : instr = .halt
      · subst hhalt
        exact ⟨offset, before, hbefore, rfl⟩
      have hinstr : chunk.code[offset]? = some instr := by
        have hhead := congrArg List.head? hrest
        rwa [List.head?_drop, Array.getElem?_toList] at hhead
      rw [highWater_cons chunk.pool hhalt]
      cases hstep : Machine.step chunk.pool instr before with
      | error e after => exact ⟨offset, before, hbefore, rfl⟩
      | ok result after =>
          have htail : chunk.code.toList.drop (offset + 1) = rest := by
            rw [drop_of_getElem? hinstr] at hrest
            exact (List.cons.inj hrest).2
          dsimp only
          rcases Nat.le_total before.stack.depth (highWater chunk.pool rest after) with hle | hle
          · rw [Nat.max_eq_right hle]
            exact ih (hbefore.step hinstr hhalt hstep) htail
          · rw [Nat.max_eq_left hle]
            exact ⟨offset, before, hbefore, rfl⟩

theorem isGreatest_highWater (chunk : Chunk) (m : Machine) :
    IsGreatest {depth | ∃ offset before, Visits chunk m offset before ∧ before.stack.depth = depth}
      (highWater chunk.pool chunk.code.toList { m with stack := m.stack.clear }) := by
  constructor
  · exact Visits.start.exists_highWater rfl
  · rintro depth ⟨offset, before, hbefore, rfl⟩
    exact Nat.le_trans (depth_le_highWater chunk.pool _ before) hbefore.highWater_le

end Depths

/-- The limit of the stack is a threshold. There is a depth that every run gets to whose limit is
not lower. All these runs end in the same way, with the same output, globals and stack. Every run
with a lower limit ends in an overflow, and what it has written is at the front of what the others
write. -/
theorem run_stack_threshold (chunk : Chunk) (m : Machine) :
    ∃ (threshold : Nat) (result : Except Fault Unit) (final : Machine),
      (∀ limit, threshold ≤ limit →
        IsGreatest {depth | ∃ offset before,
          Visits chunk (m.withLimit limit) offset before ∧ before.stack.depth = depth} threshold) ∧
      (∀ limit, threshold ≤ limit →
        (m.withLimit limit).run chunk = (result, final.withLimit limit)) ∧
      ∀ limit, limit < threshold → ∃ pos stopped,
        (m.withLimit limit).run chunk = (.error ⟨.stackOverflow limit, pos⟩, stopped) ∧
          ∃ more, final.sink.written = stopped.sink.written ++ more := by
  obtain ⟨threshold, result, final, hthreshold⟩ :=
    exists_threshold chunk chunk.code.toList 0 { m with stack := m.stack.clear }
  refine ⟨threshold, result, final, fun limit hlimit => ?_, hthreshold.enough,
    fun limit hlimit => hthreshold.tooLow limit (Nat.zero_le _) hlimit⟩
  have hgreatest := isGreatest_highWater chunk (m.withLimit limit)
  have hreached := hthreshold.reached limit hlimit
  rw [← hreached]
  exact hgreatest

end Scriptlet.Machine
