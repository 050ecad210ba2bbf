import Scriptlet.Proofs.Footprint.Names
import Scriptlet.Proofs.Lowering.Correctness
import Scriptlet.Session

/-! # The footprint of a script

A script depends on the globals that it names and on no others, and it changes no others. Two
sessions that agree on those names do the same with it, whatever else they hold and whatever earlier
scripts have left on their stacks. They need sinks that take the output, since a sink that is full
makes itself felt.
-/

namespace Scriptlet

namespace Machine

/-! ## Two machines -/

/-- Two machines that code cannot tell apart if it refers to these names only. -/
structure Agree (names : Set String) (m m' : Machine) : Prop where
  stack : m'.stack = m.stack
  globals : ∀ name ∈ names, m'.globals.get? name = m.globals.get? name

/-- What such code can do to a machine while it writes `bytes`. -/
structure Changes (names : Set String) (bytes : ByteArray) (before after : Machine) : Prop where
  written : after.sink.written = before.sink.written ++ bytes
  limit : after.sink.limit = before.sink.limit
  unnamed : ∀ name ∉ names, after.globals.get? name = before.globals.get? name
  bound : ∀ name, before.globals.get? name ≠ none → after.globals.get? name ≠ none

/-- Machines `m` and `m'` have been changed to `n` and `n'`, which still agree, and the same has
been written by both. -/
def ChangeAlike (names : Set String) (m m' n n' : Machine) : Prop :=
  Agree names n n' ∧ ∃ bytes, Changes names bytes m n ∧ Changes names bytes m' n'

section Changes

variable {names : Set String} {m m' n n' : Machine}

theorem Changes.of_eq (hglobals : n.globals = m.globals) (hsink : n.sink = m.sink) :
    Changes names .empty m n where
  written := by rw [hsink, ByteArray.append_empty]
  limit := by rw [hsink]
  unnamed name _ := by rw [hglobals]
  bound name hname := by rwa [hglobals]

theorem Changes.trans {first second : ByteArray} {middle : Machine}
    (hfirst : Changes names first m middle) (hsecond : Changes names second middle n) :
    Changes names (first ++ second) m n where
  written := by rw [hsecond.written, hfirst.written, ByteArray.append_assoc]
  limit := hsecond.limit.trans hfirst.limit
  unnamed name hname := (hsecond.unnamed name hname).trans (hfirst.unnamed name hname)
  bound name hname := hsecond.bound name (hfirst.bound name hname)

/-- The stacks may change alike. -/
theorem Agree.with_stack (hagree : Agree names m m') (stack : Stack) :
    ChangeAlike names m m' { m with stack } { m' with stack } :=
  ⟨⟨rfl, hagree.globals⟩, .empty, .of_eq rfl rfl, .of_eq rfl rfl⟩

theorem Agree.alike (hagree : Agree names m m') : ChangeAlike names m m' m m' :=
  ⟨hagree, .empty, .of_eq rfl rfl, .of_eq rfl rfl⟩

theorem ChangeAlike.trans {middle middle' : Machine}
    (hfirst : ChangeAlike names m m' middle middle')
    (hsecond : ChangeAlike names middle middle' n n') : ChangeAlike names m m' n n' := by
  rcases hfirst with ⟨_, first, hm, hm'⟩
  rcases hsecond with ⟨hagree, second, hn, hn'⟩
  exact ⟨hagree, first ++ second, hm.trans hn, hm'.trans hn'⟩

end Changes

/-! ## Steps -/

/-- How a step can end on `m` and on `m'`: in the same way, unless a sink is full. -/
inductive Outcomes {α : Type} (names : Set String) (m m' : Machine) :
    EStateM.Result RuntimeError Machine α → EStateM.Result RuntimeError Machine α → Prop
  | ok {a : α} {n n' : Machine} (halike : ChangeAlike names m m' n n') :
      Outcomes names m m' (.ok a n) (.ok a n')
  | error {e : RuntimeError} {n n' : Machine} (halike : ChangeAlike names m m' n n') :
      Outcomes names m m' (.error e n) (.error e n')
  | full {reason : String} {n : Machine} {result : EStateM.Result RuntimeError Machine α}
      (hlimit : m.sink.limit ≠ none) : Outcomes names m m' (.error (.output reason) n) result
  | full' {reason : String} {n' : Machine} {result : EStateM.Result RuntimeError Machine α}
      (hlimit : m'.sink.limit ≠ none) : Outcomes names m m' result (.error (.output reason) n')

/-- A step that neither looks at globals of other names nor changes them. -/
def Confined {α : Type} (names : Set String) (x : Step α) : Prop :=
  ∀ m m', Agree names m m' → Outcomes names m m' (x m) (x m')

theorem Outcomes.after {α : Type} {names : Set String} {m m' n n' : Machine}
    {result result' : EStateM.Result RuntimeError Machine α}
    (houtcomes : Outcomes names n n' result result') (halike : ChangeAlike names m m' n n') :
    Outcomes names m m' result result' := by
  rcases halike with ⟨hagree, bytes, hm, hm'⟩
  cases houtcomes with
  | ok hnext => exact .ok (ChangeAlike.trans ⟨hagree, bytes, hm, hm'⟩ hnext)
  | error hnext => exact .error (ChangeAlike.trans ⟨hagree, bytes, hm, hm'⟩ hnext)
  | full hlimit => exact .full (hm.limit ▸ hlimit)
  | full' hlimit => exact .full' (hm'.limit ▸ hlimit)

namespace Confined

variable {α β : Type} {names : Set String}

theorem bind {x : Step α} {f : α → Step β} (hx : Confined names x)
    (hf : ∀ a, Confined names (f a)) : Confined names (x >>= f) := by
  intro m m' hagree
  have hfirst := hx m m' hagree
  simp only [Bind.bind, EStateM.bind]
  revert hfirst
  generalize x m = result
  generalize x m' = result'
  intro hfirst
  cases hfirst with
  | @ok a n n' halike => exact (hf a n n' halike.1).after halike
  | error halike => exact .error halike
  | full hlimit => exact .full hlimit
  | full' hlimit => exact .full' hlimit

theorem pure (a : α) : Confined names (Pure.pure a) := fun _ _ hagree => .ok hagree.alike

theorem throw (e : RuntimeError) : Confined names (MonadExcept.throw e : Step α) :=
  fun _ _ hagree => .error hagree.alike

/-- A step that works on the stack alone. -/
theorem of_stack {x : Step α} {f : Stack → Except RuntimeError (α × Stack)}
    (hx : ∀ m, x m = match f m.stack with
      | .ok (a, stack) => .ok a { m with stack }
      | .error e => .error e m) : Confined names x := by
  intro m m' hagree
  rw [hx, hx, hagree.stack]
  cases f m.stack with
  | ok result => exact .ok (hagree.with_stack result.2)
  | error e => exact .error hagree.alike

theorem push (value : Value) : Confined names (Machine.push value) := by
  apply of_stack (f := fun stack => (stack.push value).map ((), ·))
  intro m
  unfold Machine.push
  cases m.stack.push value <;> rfl

theorem pop : Confined names Machine.pop := by
  apply of_stack (f := Stack.pop)
  intro m
  unfold Machine.pop
  cases m.stack.pop <;> rfl

theorem peek (distance : Nat) : Confined names (Machine.peek distance) := by
  apply of_stack (f := fun stack => (stack.peek distance).map (·, stack))
  intro m
  unfold Machine.peek
  cases m.stack.peek distance <;> rfl

theorem getSlot (slot : Nat) : Confined names (Machine.getSlot slot) := by
  apply of_stack (f := fun stack => (stack.get slot).map (·, stack))
  intro m
  unfold Machine.getSlot
  cases m.stack.get slot <;> rfl

theorem setSlot (slot : Nat) (value : Value) : Confined names (Machine.setSlot slot value) := by
  apply of_stack (f := fun stack => (stack.set slot value).map ((), ·))
  intro m
  unfold Machine.setSlot
  cases m.stack.set slot value <;> rfl

theorem constant (pool : Pool) (index : Nat) : Confined names (Machine.constant pool index) := by
  unfold Machine.constant
  cases pool.get? index with
  | some value => exact pure value
  | none => exact throw _

theorem result (value : Except ValueError Value) : Confined names (Machine.result value) := by
  cases value with
  | ok value => exact pure value
  | error e => exact throw _

theorem unary (operation : Value → Except ValueError Value) :
    Confined names (Machine.unary operation) :=
  pop.bind fun _ => (result _).bind push

theorem binary (operation : Value → Value → Except ValueError Value) :
    Confined names (Machine.binary operation) :=
  pop.bind fun _ => pop.bind fun _ => (result _).bind push

theorem global? {name : String} (hname : name ∈ names) : Confined names (Machine.global? name) := by
  intro m m' hagree
  unfold Machine.global?
  rw [hagree.globals name hname]
  exact .ok hagree.alike

/-- A change of one binding, which keeps a name that is bound so. -/
theorem setGlobals {name : String} (hname : name ∈ names) {change : Globals → Globals}
    (rebind : Option Value → Option Value)
    (hget : ∀ globals other, (change globals).get? other =
      if other = name then rebind (globals.get? other) else globals.get? other)
    (hbound : ∀ value, rebind (some value) ≠ none) :
    Confined names (Machine.setGlobals change) := by
  have hchanges : ∀ m, Changes names .empty m { m with globals := change m.globals } := by
    intro m
    refine ⟨(ByteArray.append_empty).symm, rfl, fun other hother => ?_, fun other hother => ?_⟩
    · rw [hget, if_neg]
      rintro rfl
      exact hother hname
    · rw [hget]
      split
      · rcases Option.ne_none_iff_exists'.mp hother with ⟨value, hvalue⟩
        rw [hvalue]
        exact hbound value
      · exact hother
  intro m m' hagree
  refine .ok ⟨⟨hagree.stack, fun other hother => ?_⟩, .empty, hchanges m, hchanges m'⟩
  rw [hget, hget, hagree.globals other hother]

theorem declare {name : String} (hname : name ∈ names) (value : Value) :
    Confined names (Machine.setGlobals (·.declare name value)) := by
  apply setGlobals hname (fun _ => some value)
  · exact fun globals other => globals.get?_declare name other value
  · simp

theorem assign {name : String} (hname : name ∈ names) (value : Value) :
    Confined names (Machine.setGlobals (·.assign name value)) := by
  apply setGlobals hname (Option.map fun _ => value)
  · exact fun globals other => globals.get?_assign name other value
  · simp

theorem write (text : String) : Confined names (Machine.write text) := by
  rintro ⟨stack, globals, sink⟩ ⟨stack', globals', sink'⟩ hagree
  unfold Machine.write
  dsimp only
  rcases write_cases sink text.toUTF8 with hwrite | ⟨hlimit, reason, rest, hwrite⟩
  · rcases write_cases sink' text.toUTF8 with hwrite' | ⟨hlimit, reason, rest, hwrite'⟩
    · rw [hwrite, hwrite']
      refine .ok ⟨⟨hagree.stack, hagree.globals⟩, text.toUTF8, ?_, ?_⟩
      · exact ⟨rfl, rfl, fun _ _ => rfl, fun _ h => h⟩
      · exact ⟨rfl, rfl, fun _ _ => rfl, fun _ h => h⟩
    · rw [hwrite']
      exact .full' hlimit
  · rw [hwrite]
    exact .full hlimit

end Confined

/-- An instruction is confined to the name that it refers to. -/
theorem confined_step {names : Set String} {pool : Pool} {instr : Instr}
    (hnamed : instr.NamedIn pool names) : Confined names (step pool instr) := by
  cases instr with
  | constant index => exact (Confined.constant pool index).bind .push
  | pushNil | pushTrue | pushFalse => exact .push _
  | negate | not => exact .unary _
  | add | subtract | multiply | divide | equal | greater | less => exact .binary _
  | declGlobal index =>
      rcases hnamed index rfl with ⟨name, hname, hget⟩
      rw [step, globalName_eq hget, pure_bind]
      refine (Confined.global? hname).bind fun bound => ?_
      cases bound with
      | some value => exact .throw _
      | none => exact (Confined.peek 0).bind fun value => .declare hname value
  | setGlobal index =>
      rcases hnamed index rfl with ⟨name, hname, hget⟩
      rw [step, globalName_eq hget, pure_bind]
      refine (Confined.peek 0).bind fun value => (Confined.global? hname).bind fun bound => ?_
      cases bound with
      | some old => exact .assign hname value
      | none => exact .throw _
  | getGlobal index =>
      rcases hnamed index rfl with ⟨name, hname, hget⟩
      rw [step, globalName_eq hget, pure_bind]
      refine (Confined.global? hname).bind fun bound => ?_
      cases bound with
      | some value => exact .push value
      | none => exact .throw _
  | declLocal slot =>
      intro m m' hagree
      simp only [step, hagree.stack]
      split
      · exact .ok hagree.alike
      · exact .error hagree.alike
  | setLocal slot => exact (Confined.peek 0).bind fun value => .setSlot slot value
  | getLocal slot => exact (Confined.getSlot slot).bind .push
  | print => exact Confined.pop.bind fun value => .write _
  | pop => exact Confined.pop.bind fun _ => .pure ()
  | halt => exact .pure ()

/-! ## Runs -/

/-- How a run can end on `m` and on `m'`: in the same way, unless a sink is full. -/
inductive RunOutcomes (names : Set String) (m m' : Machine) :
    Except Fault Unit × Machine → Except Fault Unit × Machine → Prop
  | same {result : Except Fault Unit} {n n' : Machine} (halike : ChangeAlike names m m' n n') :
      RunOutcomes names m m' (result, n) (result, n')
  | full {reason : String} {pos : Pos} {n : Machine} {outcome : Except Fault Unit × Machine}
      (hlimit : m.sink.limit ≠ none) :
      RunOutcomes names m m' (.error ⟨.output reason, pos⟩, n) outcome
  | full' {reason : String} {pos : Pos} {n' : Machine} {outcome : Except Fault Unit × Machine}
      (hlimit : m'.sink.limit ≠ none) :
      RunOutcomes names m m' outcome (.error ⟨.output reason, pos⟩, n')

theorem RunOutcomes.after {names : Set String} {m m' n n' : Machine}
    {outcome outcome' : Except Fault Unit × Machine}
    (houtcomes : RunOutcomes names n n' outcome outcome') (halike : ChangeAlike names m m' n n') :
    RunOutcomes names m m' outcome outcome' := by
  rcases halike with ⟨hagree, bytes, hm, hm'⟩
  cases houtcomes with
  | same hnext => exact .same (ChangeAlike.trans ⟨hagree, bytes, hm, hm'⟩ hnext)
  | full hlimit => exact .full (hm.limit ▸ hlimit)
  | full' hlimit => exact .full' (hm'.limit ▸ hlimit)

theorem execute_outcomes {names : Set String} {chunk : Chunk} {instrs : List Instr}
    (hnamed : ∀ instr ∈ instrs, instr.NamedIn chunk.pool names) (offset : Nat) {m m' : Machine}
    (hagree : Agree names m m') :
    RunOutcomes names m m' (execute chunk offset instrs m) (execute chunk offset instrs m') := by
  induction instrs generalizing offset m m' with
  | nil => exact .same hagree.alike
  | cons instr rest ih =>
      rcases List.forall_mem_cons.mp hnamed with ⟨hinstr, hrest⟩
      by_cases hhalt : instr = .halt
      · subst hhalt
        exact .same hagree.alike
      · rw [execute_cons chunk offset hhalt, execute_cons chunk offset hhalt]
        have hstep := confined_step hinstr m m' hagree
        revert hstep
        generalize step chunk.pool instr m = result
        generalize step chunk.pool instr m' = result'
        intro hstep
        cases hstep with
        | ok halike => exact (ih hrest (offset + 1) halike.1).after halike
        | error halike => exact .same halike
        | full hlimit => exact .full hlimit
        | full' hlimit => exact .full' hlimit

/-- A run depends on the globals that the code names, and changes no others. The stacks on which it
starts are cleared, so that only their limits matter. -/
theorem run_outcomes {names : Set String} {chunk : Chunk}
    (hnamed : ∀ instr ∈ chunk.code.toList, instr.NamedIn chunk.pool names) {m m' : Machine}
    (hlimit : m'.stack.limit = m.stack.limit)
    (hglobals : ∀ name ∈ names, m'.globals.get? name = m.globals.get? name) :
    RunOutcomes names m m' (m.run chunk) (m'.run chunk) := by
  have hcleared : Agree names { m with stack := m.stack.clear }
      { m' with stack := m'.stack.clear } := by
    refine ⟨?_, hglobals⟩
    simp only [Stack.clear, hlimit]
  apply (execute_outcomes hnamed 0 hcleared).after
  exact ⟨hcleared, .empty, .of_eq rfl rfl, .of_eq rfl rfl⟩

end Machine

/-! ## Sessions -/

namespace Session

/-- The sink takes all that the script writes. A sink without a limit does so with every script. -/
def CanWrite (session : Session) (source : String) : Prop :=
  session.machine.sink.limit = none ∨
    ∀ reason pos, (session.attempt source).1 ≠ .error (.faulted ⟨.output reason, pos⟩)

/-- What is written before a chunk is run. -/
def preamble (config : Config) (chunk : Chunk) : ByteArray :=
  if config.listing then (chunk.listing "script").toUTF8 else .empty

/-- The machine of a session that is about to run a chunk. -/
def announced (session : Session) (chunk : Chunk) : Machine :=
  { session.machine with
    sink := ⟨session.machine.sink.written ++ preamble session.config chunk,
      session.machine.sink.limit⟩ }

theorem changes_announced (names : Set String) (session : Session) (chunk : Chunk) :
    Machine.Changes names (preamble session.config chunk) session.machine
      (session.announced chunk) :=
  ⟨rfl, rfl, fun _ _ => rfl, fun _ hname => hname⟩

theorem announce_cases (session : Session) (chunk : Chunk) :
    session.announce chunk = (.ok (), { session with machine := session.announced chunk }) ∨
      session.machine.sink.limit ≠ none ∧
        ∃ reason pos next, session.announce chunk = (.error ⟨.output reason, pos⟩, next) := by
  rcases session with ⟨config, ⟨stack, globals, sink⟩, lastFailure⟩
  unfold announce announced preamble
  by_cases hlisting : config.listing = true
  · simp only [hlisting, if_true, Machine.write]
    rcases Machine.write_cases sink (chunk.listing "script").toUTF8 with
      hwrite | ⟨hlimit, reason, rest, hwrite⟩
    · rw [hwrite]
      exact .inl rfl
    · rw [hwrite]
      exact .inr ⟨hlimit, reason, _, _, rfl⟩
  · simp [hlisting]

section Attempts

variable {session : Session} {source : String} {chunk : Chunk}
  (hcompile : compile session.config.recovery source = .ok chunk)
  (hwrite : session.CanWrite source)

include hcompile hwrite

/-- With room for the listing, an attempt is a run after it. -/
theorem attempt_eq_run :
    session.attempt source = (((session.announced chunk).run chunk).1.mapError .faulted,
      { session with machine := ((session.announced chunk).run chunk).2 }) := by
  rcases session.announce_cases chunk with hannounce | ⟨hlimit, reason, pos, next, hannounce⟩
  · simp only [attempt, hcompile, hannounce, run]
  · have hattempt : (session.attempt source).1 = .error (.faulted ⟨.output reason, pos⟩) := by
      simp only [attempt, hcompile, hannounce]
    rcases hwrite with hnone | hnever
    · exact absurd hnone hlimit
    · exact absurd hattempt (hnever reason pos)

theorem run_ne_output (hlimit : session.machine.sink.limit ≠ none) {reason : String} {pos : Pos}
    {after : Machine} :
    (session.announced chunk).run chunk ≠ (.error ⟨.output reason, pos⟩, after) := by
  intro hrun
  have hattempt := congrArg Prod.fst (attempt_eq_run hcompile hwrite)
  rw [hrun] at hattempt
  rcases hwrite with hnone | hnever
  · exact hlimit hnone
  · exact hnever reason pos hattempt

end Attempts

end Session

open Machine in
/-- Sessions that agree on the names to which the code of a script refers attempt the script with
the same result. -/
theorem Session.attempt_alike {s t : Session} {source : String} {names : Set String}
    (hnamed : ∀ chunk, compile s.config.recovery source = .ok chunk →
      ∀ instr ∈ chunk.code.toList, instr.NamedIn chunk.pool names)
    (hconfig : t.config = s.config) (hlimit : t.machine.stack.limit = s.machine.stack.limit)
    (hglobals : ∀ name ∈ names, t.global? name = s.global? name) (hs : s.CanWrite source)
    (ht : t.CanWrite source) :
    (t.attempt source).1 = (s.attempt source).1 ∧
      (∀ name ∈ names, (t.attempt source).2.global? name = (s.attempt source).2.global? name) ∧
      ∃ bytes, Changes names bytes s.machine (s.attempt source).2.machine ∧
        Changes names bytes t.machine (t.attempt source).2.machine := by
  cases hcompile : compile s.config.recovery source with
  | error rejection =>
      have hattempt : ∀ {session : Session}, session.config = s.config →
          session.attempt source = (.error (.rejected rejection), session) := by
        intro session hsame
        simp only [attempt, hsame, hcompile]
      rw [hattempt hconfig, hattempt rfl]
      exact ⟨rfl, hglobals, .empty, .of_eq rfl rfl, .of_eq rfl rfl⟩
  | ok chunk =>
      have hcompile' : compile t.config.recovery source = .ok chunk := by rw [hconfig, hcompile]
      have hrun : RunOutcomes names (s.announced chunk) (t.announced chunk) _ _ :=
        run_outcomes (hnamed chunk hcompile) hlimit hglobals
      rw [attempt_eq_run hcompile hs, attempt_eq_run hcompile' ht]
      rcases hfirst : (s.announced chunk).run chunk with ⟨result, n⟩
      rcases hsecond : (t.announced chunk).run chunk with ⟨result', n'⟩
      rw [hfirst, hsecond] at hrun
      cases hrun with
      | same halike =>
          rcases halike with ⟨hagree, bytes, hn, hn'⟩
          have hannounced := changes_announced names t chunk
          rw [hconfig] at hannounced
          exact ⟨rfl, hagree.globals, _, (changes_announced names s chunk).trans hn,
            hannounced.trans hn'⟩
      | full hfull => exact absurd hfirst (run_ne_output hcompile hs hfull)
      | full' hfull => exact absurd hsecond (run_ne_output hcompile' ht hfull)

theorem Session.interpret_eq (session : Session) (source : String) :
    session.interpret source =
      match (session.attempt source).1 with
      | .ok _ => (.ok, { (session.attempt source).2 with lastFailure := none })
      | .error failure =>
        (failure.status, { (session.attempt source).2 with lastFailure := some failure }) := by
  unfold interpret
  rcases session.attempt source with ⟨_ | _, next⟩ <;> rfl

/-- A script's footprint is the identifiers it names. On sessions with the same settings whose
globals agree on these identifiers, and whose sinks take the output, interpreting the script gives
the same status, keeps the same reason if it fails and writes the same. Afterwards the sessions
still agree on the identifiers; no other global of either has changed, and no name that was bound
has become unbound. -/
theorem interpret_footprint {s t : Session} {source : String} (hconfig : t.config = s.config)
    (hlimit : t.machine.stack.limit = s.machine.stack.limit)
    (hglobals : ∀ name ∈ Token.identifiers (Token.ofSource source).toList,
      t.global? name = s.global? name)
    (hs : s.CanWrite source) (ht : t.CanWrite source) :
    (t.interpret source).1 = (s.interpret source).1 ∧
      (t.interpret source).2.lastFailure = (s.interpret source).2.lastFailure ∧
      (∃ bytes,
        (s.interpret source).2.machine.sink.written = s.machine.sink.written ++ bytes ∧
        (t.interpret source).2.machine.sink.written = t.machine.sink.written ++ bytes) ∧
      (∀ name ∈ Token.identifiers (Token.ofSource source).toList,
        (t.interpret source).2.global? name = (s.interpret source).2.global? name) ∧
      ∀ session ∈ [s, t],
        (∀ name ∉ Token.identifiers (Token.ofSource source).toList,
          (session.interpret source).2.global? name = session.global? name) ∧
        ∀ name, session.global? name ≠ none → (session.interpret source).2.global? name ≠ none := by
  obtain ⟨hresult, hagree, bytes, hchanges, hchanges'⟩ :=
    Session.attempt_alike (fun _ => namedIn_of_compile) hconfig hlimit hglobals hs ht
  have hmachine : ∀ session : Session,
      (session.interpret source).2.machine = (session.attempt source).2.machine := by
    intro session
    rw [Session.interpret_eq]
    cases (session.attempt source).1 <;> rfl
  have hstatus : (t.interpret source).1 = (s.interpret source).1 ∧
      (t.interpret source).2.lastFailure = (s.interpret source).2.lastFailure := by
    rw [Session.interpret_eq, Session.interpret_eq, hresult]
    cases (s.attempt source).1 <;> exact ⟨rfl, rfl⟩
  simp only [List.forall_mem_cons, List.not_mem_nil, false_implies, implies_true, and_true,
    Session.global?, hmachine]
  exact ⟨hstatus.1, hstatus.2, ⟨bytes, hchanges.written, hchanges'.written⟩, hagree,
    ⟨hchanges.unnamed, hchanges.bound⟩, hchanges'.unnamed, hchanges'.bound⟩

/-- The session of the sample with the same `g`, another global and other leftovers. -/
def Session.sampleOther : Session :=
  ⟨.default, ⟨⟨#[.int 1], 16⟩, ⟨[("h", .nil), ("g", .int 20)]⟩, ⟨"g\n".toUTF8, none⟩⟩,
    some (.faulted ⟨.divisionByZero, .start⟩)⟩

/-- A script that has `h` as a string but not as an identifier, and fails at its end. -/
def Session.stringScript : String := "decl x = g\nprint(\"h\")\ng = -\"h\""

theorem interpret_footprint_strings :
    (∀ name ∈ Token.identifiers (Token.ofSource Session.stringScript).toList,
      Session.sampleOther.global? name = Session.sample.global? name) ∧
      (Session.sample.interpret Session.stringScript).1 = .runtimeError ∧
      (Session.sampleOther.interpret Session.stringScript).1 = .runtimeError ∧
      (Session.sample.interpret Session.stringScript).2.global? "h" = none ∧
      (Session.sampleOther.interpret Session.stringScript).2.global? "h" = some .nil := by
  have hagree : ∀ name ∈ Token.identifiers (Token.ofSource Session.stringScript).toList,
      Session.sampleOther.global? name = Session.sample.global? name := by
    rintro _ ⟨token, htoken, hkind, rfl⟩
    revert token
    decide +kernel
  have hunnamed : "h" ∉ Token.identifiers (Token.ofSource Session.stringScript).toList := by
    rintro ⟨token, htoken, hkind, hname⟩
    revert token
    decide +kernel
  have hstatus : (Session.sample.interpret Session.stringScript).1 = .runtimeError := by
    decide +kernel
  obtain ⟨hsame, _, _, _, hframe⟩ := interpret_footprint (s := Session.sample)
    (t := Session.sampleOther) rfl rfl hagree (.inl rfl) (.inl rfl)
  refine ⟨hagree, hstatus, hsame.trans hstatus, ?_, ?_⟩
  · rw [(hframe Session.sample (by simp)).1 "h" hunnamed]
    rfl
  · rw [(hframe Session.sampleOther (by simp)).1 "h" hunnamed]
    rfl

end Scriptlet
