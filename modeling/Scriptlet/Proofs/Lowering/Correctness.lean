import Scriptlet.Proofs.Acceptance
import Scriptlet.Proofs.Lowering.Simulation
import Scriptlet.Proofs.Lowering.StackDepth
import Scriptlet.Proofs.Unambiguity
import Scriptlet.Session

/-! # A session does what its scripts say

A script that a session accepts is the text of one tree only, and to run its code is to evaluate
that tree: the outcome is the same, and so are the output and the globals. The stack that an earlier
script has left does not matter.
-/

namespace Scriptlet

/-! ## Variables by their names -/

namespace Env

variable {env env' : Env} {name : String} {value : Value}

/-- The value that a name stands for: that of the innermost block variable, or of the global. -/
def value? (env : Env) (name : String) : Option Value :=
  (env.locals.lookup name).or (env.globals.get? name)

theorem read_eq (name : String) (env : Env) :
    read name env = match env.value? name with
      | some value => .ok value env
      | none => .error (.undefinedVariable name) env := by
  unfold read value?
  cases env.locals.lookup name <;> cases env.globals.get? name <;> rfl

theorem lookup_setLocal (name other : String) (value : Value) (locals : List (String × Value)) :
    (setLocal name value locals).lookup other =
      if other = name then (locals.lookup other).map fun _ => value else locals.lookup other := by
  induction locals with
  | nil => simp [setLocal]
  | cons first outer ih =>
      obtain ⟨n, v⟩ := first
      rw [setLocal]
      by_cases hn : n = name <;> by_cases ho : other = n <;> grind

/-- An assignment leaves its name bound to the value, and every other name as it was. -/
theorem value?_of_write (hwrite : write name value env = .ok () env') (other : String) :
    env'.value? other = if other = name then some value else env.value? other := by
  unfold write at hwrite
  split at hwrite
  next old hlocal =>
    cases hwrite
    rw [value?, lookup_setLocal]
    split
    next heq => rw [heq, hlocal, Option.map_some, Option.some_or]
    next => rfl
  next old hlocal hglobal =>
    cases hwrite
    rw [value?, Globals.get?_assign]
    split
    next heq => rw [heq, hlocal, hglobal, Option.none_or, Option.map_some]
    next => rfl
  next => contradiction

/-- A declaration outside all blocks leaves its name bound to the value, and every other global as
it was. -/
theorem get?_of_declareGlobal (hdeclare : declareGlobal name value env = .ok () env')
    (other : String) :
    env'.globals.get? other = if other = name then some value else env.globals.get? other := by
  unfold declareGlobal at hdeclare
  split at hdeclare
  next => contradiction
  next =>
    cases hdeclare
    exact env.globals.get?_declare name other value

end Env

/-! ## Runs -/

/-- A machine that starts on an empty stack is at the beginning of an evaluation. -/
theorem Machine.matches_clear (m : Machine) :
    Matches m.sink [] [] { m with stack := m.stack.clear } ⟨[], m.globals, ""⟩ where
  globals := rfl
  sink := by simp
  names := rfl
  stack := rfl

/-- A run of a script performs its instructions on an empty stack. -/
theorem Program.run_eq_perform {program : Program} {pool : Pool}
    (hholds : pool.Holds program.constants) (hscoped : program.WellScoped) (m : Machine) :
    match Machine.perform pool (program.instrs pool) { m with stack := m.stack.clear } with
    | .ok _ m' => m.run (program.lower pool) = (.ok (), m')
    | .error e m' => ∃ pos, m.run (program.lower pool) = (.error ⟨e, pos⟩, m') :=
  Machine.run_eq (program.lower pool) (program.code_lower pool)
    (Instr.halt_not_mem (program.depthAfterAll?_instrs hholds hscoped)) m

/-- A run of a script either runs out of room or does what evaluating the script does. -/
theorem Program.run_lower {program : Program} {pool : Pool} (hholds : pool.Holds program.constants)
    (hscoped : program.WellScoped) (m : Machine) :
    (∃ e pos, (m.run (program.lower pool)).1 = .error ⟨e, pos⟩ ∧ e.IsExhaustion m.sink) ∨
      match program.eval ⟨[], m.globals, ""⟩ with
      | .ok _ env => (m.run (program.lower pool)).1 = .ok () ∧
          (m.run (program.lower pool)).2.Shows m.sink env
      | .error e env => (∃ pos, (m.run (program.lower pool)).1 = .error ⟨e, pos⟩) ∧
          (m.run (program.lower pool)).2.Shows m.sink env := by
  have hrun := program.run_eq_perform hholds hscoped m
  have hsimulates := program.simulates hholds hscoped m.sink _ _ m.matches_clear
  cases hperform : Machine.perform pool (program.instrs pool) { m with stack := m.stack.clear } with
  | ok _ m' =>
      rw [hperform] at hrun hsimulates
      obtain ⟨_, env, heval, hmatches⟩ := hsimulates
      rw [heval, hrun]
      exact .inr ⟨rfl, hmatches.toShows⟩
  | error e m' =>
      rw [hperform] at hrun hsimulates
      obtain ⟨pos, hrun⟩ := hrun
      rcases hsimulates with hroom | ⟨env, heval, hshows⟩
      · exact .inl ⟨e, pos, by rw [hrun], hroom⟩
      · rw [heval, hrun]
        exact .inr ⟨⟨pos, rfl⟩, hshows⟩

/-- Without a listing, to attempt a script that has code is to run the code. -/
theorem Session.attempt_eq {session : Session} {source : String} {chunk : Chunk}
    (hcompile : compile session.config.recovery source = .ok chunk)
    (hlisting : session.config.listing = false) :
    session.attempt source = ((session.machine.run chunk).1.mapError .faulted,
      { session with machine := (session.machine.run chunk).2 }) := by
  simp [attempt, hcompile, announce, hlisting, run]

/-- The code of a script is correct. The tokens of an accepted script derive one tree only, and
unless the attempt runs out of room, it ends as evaluating the tree does: with success or the same
error, the same output and the same globals. -/
theorem attempt_eq_eval {session : Session} {source : String} {chunk : Chunk}
    (hcompile : compile session.config.recovery source = .ok chunk)
    (hlisting : session.config.listing = false)
    (hstack : ∀ limit pos,
      (session.attempt source).1 ≠ .error (.faulted ⟨.stackOverflow limit, pos⟩))
    (hsink : session.machine.sink.limit = none ∨
      ∀ reason pos, (session.attempt source).1 ≠ .error (.faulted ⟨.output reason, pos⟩)) :
    ∃ program, Program.Derives (Token.ofSource source).toList program ∧
      (∀ other, Program.Derives (Token.ofSource source).toList other → other = program) ∧
      match program.eval ⟨[], session.machine.globals, ""⟩ with
      | .ok _ env => (session.attempt source).1 = .ok () ∧
          (session.attempt source).2.machine.Shows session.machine.sink env
      | .error e env => (∃ pos, (session.attempt source).1 = .error (.faulted ⟨e, pos⟩)) ∧
          (session.attempt source).2.machine.Shows session.machine.sink env := by
  rw [Session.attempt_eq hcompile hlisting] at hstack hsink ⊢
  obtain ⟨program, pool, hderives, hadmissible, hpool, rfl⟩ := compile_eq_ok_iff.mp hcompile
  refine ⟨program, hderives, fun other hother => hother.unique hderives, ?_⟩
  rcases program.run_lower (Pool.holds_of_addAll hpool) hadmissible.wellScoped session.machine with
    ⟨e, pos, hresult, hroom⟩ | hrun
  · -- The attempt has not run out of room.
    rw [hresult] at hstack hsink
    cases e with
    | stackOverflow limit => exact absurd rfl (hstack limit pos)
    | output reason =>
        rcases hsink with hlimit | houtput
        · exact absurd hlimit hroom
        · exact absurd rfl (houtput reason pos)
    | _ => exact hroom.elim
  · cases heval : program.eval ⟨[], session.machine.globals, ""⟩ with
    | ok _ env =>
        rw [heval] at hrun
        exact ⟨by rw [hrun.1]; rfl, hrun.2⟩
    | error e env =>
        rw [heval] at hrun
        obtain ⟨⟨pos, hresult⟩, hshows⟩ := hrun
        exact ⟨⟨pos, by rw [hresult]; rfl⟩, hshows⟩

/-- A session whose machine has a global and values that a failed script left on the stack. -/
def Session.sample : Session :=
  ⟨.default, ⟨⟨#[.nil, .bool true], 16⟩, ⟨[("g", .int 20)]⟩, .ofLimit none⟩, none⟩

/-- Shadowing, assignments inside other expressions and operators of several levels, with a fault at
the end. -/
def Session.sampleScript : String :=
  "decl h = g\n\x7b decl x = h = g + 1; \x7b decl y = x = 7 - x; decl x = y; print(x >= h); \x7d
    print(x + h); \x7d\nprint(1 + 2 * 3 - 8 / 4 == 5)\nprint(-nil)"

theorem attempt_eq_eval_sample :
    (Session.sample.attempt Session.sampleScript).1 =
        .error (.faulted ⟨.typeError "number or boolean" "nil", ⟨5, 8⟩⟩) ∧
      ∃ program env, Program.Derives (Token.ofSource Session.sampleScript).toList program ∧
        program.eval ⟨[], Session.sample.machine.globals, ""⟩ =
          .error (.typeError "number or boolean" "nil") env ∧
        env.printed = "false\n7\ntrue\n" ∧
        env.globals.get? "g" = some (.int 20) ∧ env.globals.get? "h" = some (.int 21) ∧
        (Session.sample.attempt Session.sampleScript).2.machine.Shows Session.sample.machine.sink
          env := by
  obtain ⟨hresult, hwritten, hglobals, hok⟩ :
      (Session.sample.attempt Session.sampleScript).1 =
          .error (.faulted ⟨.typeError "number or boolean" "nil", ⟨5, 8⟩⟩) ∧
        (Session.sample.attempt Session.sampleScript).2.machine.sink.written =
          "false\n7\ntrue\n".toUTF8 ∧
        ((Session.sample.attempt Session.sampleScript).2.machine.globals.get? "g" = some (.int 20) ∧
          (Session.sample.attempt Session.sampleScript).2.machine.globals.get? "h" =
            some (.int 21)) ∧
        (compile Session.sample.config.recovery Session.sampleScript).isOk := by decide +kernel
  refine ⟨hresult, ?_⟩
  obtain ⟨chunk, hcompile⟩ := exists_of_isOk_compile hok
  obtain ⟨program, hderives, _, heval⟩ :=
    attempt_eq_eval hcompile rfl (by simp [hresult]) (.inl rfl)
  cases hprogram : program.eval ⟨[], Session.sample.machine.globals, ""⟩ with
  | ok _ env =>
      rw [hprogram] at heval
      exact absurd (hresult.symm.trans heval.1) (by simp)
  | error e env =>
      rw [hprogram] at heval
      obtain ⟨⟨pos, herror⟩, hshows⟩ := heval
      obtain ⟨rfl, _⟩ := Fault.mk.inj (Failure.faulted.inj (Except.error.inj
        (hresult.symm.trans herror)))
      rw [hshows.globals] at hglobals
      rw [hshows.sink] at hwritten
      change ByteArray.empty ++ env.printed.toUTF8 = _ at hwritten
      rw [ByteArray.empty_append] at hwritten
      exact ⟨program, env, hderives, hprogram, String.toByteArray_inj.mp hwritten, hglobals.1,
        hglobals.2, hshows⟩

end Scriptlet
