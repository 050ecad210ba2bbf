import Scriptlet.Proofs.Joining.Trees
import Scriptlet.Proofs.Lowering.Correctness
import Scriptlet.Proofs.Lowering.WellFormed

/-! # A session equals a script

To give scripts to a session one after the other is to give it a single script that has them all,
in the same order. Only those matter that are accepted, and only up to the first that fails at run
time.
-/

namespace Scriptlet

theorem Machine.clear_eq_self {m : Machine} (hempty : m.stack.values = #[]) :
    { m with stack := m.stack.clear } = m := by
  obtain ⟨⟨values, limit⟩, globals, sink⟩ := m
  obtain rfl : values = #[] := hempty
  rfl

/-- Gives accepted scripts their trees. -/
def IsReading (recovery : Bool) (tree : String → Program) : Prop :=
  ∀ source chunk, compile recovery source = .ok chunk →
    Program.Derives (Token.ofSource source).toList (tree source) ∧ (tree source).Admissible ∧
      ∃ own : Pool, own.Holds (tree source).constants ∧ (tree source).lower own = chunk

theorem exists_isReading (recovery : Bool) : ∃ tree, IsReading recovery tree := by
  have htree : ∀ source, ∃ program : Program, ∀ chunk, compile recovery source = .ok chunk →
      Program.Derives (Token.ofSource source).toList program ∧ program.Admissible ∧
        ∃ own : Pool, own.Holds program.constants ∧ program.lower own = chunk := by
    intro source
    cases hcompile : compile recovery source with
    | error rejection => exact ⟨default, by simp⟩
    | ok chunk =>
        obtain ⟨program, own, hderives, hadmissible, hown, hlower⟩ := compile_eq_ok_iff.mp hcompile
        refine ⟨program, fun chunk' hchunk => ?_⟩
        exact ⟨hderives, hadmissible, own, Pool.holds_of_addAll hown,
          hlower.trans (Except.ok.inj hchunk)⟩
  choose tree htree using htree
  exact ⟨tree, htree⟩

namespace Session

/-- Interprets scripts one after the other. -/
def interpretAll (session : Session) : List String → List Status × Session
  | [] => ([], session)
  | source :: sources =>
    let (status, session) := session.interpret source
    let (statuses, session) := session.interpretAll sources
    (status :: statuses, session)

/-- The scripts up to the first that fails at run time if all are interpreted; all if none does. -/
def untilFault (session : Session) (sources : List String) : List String :=
  sources.take ((session.interpretAll sources).1.findIdx (· == .runtimeError) + 1)

/-- Interprets scripts one after the other up to the first that fails at run time. -/
def play (session : Session) (sources : List String) : List Status × Session :=
  session.interpretAll (session.untilFault sources)

def accepts (session : Session) (source : String) : Bool :=
  (compile session.config.recovery source).isOk

/-- The accepted scripts among those up to the first that fails at run time. -/
def accepted (session : Session) (sources : List String) : List String :=
  (session.untilFault sources).filter session.accepts

/-- The accepted scripts as one, each on lines of its own. -/
def script (session : Session) (sources : List String) : String :=
  "\n".intercalate (session.accepted sources)

variable {session : Session} {source : String}

/-! ## Single scripts -/

/-- A script that is rejected changes nothing but the reason that is kept. -/
theorem interpret_of_error {rejection : Rejection}
    (hcompile : compile session.config.recovery source = .error rejection) :
    session.interpret source =
      (.compileError, { session with lastFailure := some (.rejected rejection) }) := by
  simp only [interpret, attempt, hcompile, Failure.status]

/-- On an empty stack, a script does what its instructions do over any pool that holds its
constants. -/
theorem interpret_of_ok {program : Program} {own pool : Pool}
    (hcompile : compile session.config.recovery source = .ok (program.lower own))
    (hlisting : session.config.listing = false) (hempty : session.machine.stack.values = #[])
    (hown : own.Holds program.constants) (hpool : pool.Holds program.constants)
    (hscoped : program.WellScoped) :
    match Machine.perform pool (program.instrs pool) session.machine with
    | .ok _ m => session.interpret source = (.ok, ⟨session.config, m, none⟩) ∧
        m.stack.values = #[]
    | .error e m => ∃ pos, session.interpret source =
        (.runtimeError, ⟨session.config, m, some (.faulted ⟨e, pos⟩)⟩) := by
  have hrun := program.run_eq_perform hown hscoped session.machine
  rw [Machine.clear_eq_self hempty, Program.perform_instrs_eq hown hpool hscoped] at hrun
  cases hperform : Machine.perform pool (program.instrs pool) session.machine with
  | ok _ m =>
      rw [hperform] at hrun
      have hdepth := Machine.depth_of_run_eq_ok (program.code_lower own)
        (program.depthAfterAll?_instrs hown hscoped) hrun
      refine ⟨?_, Array.eq_empty_of_size_eq_zero hdepth⟩
      rw [interpret, attempt_eq hcompile hlisting, hrun]
      rfl
  | error e m =>
      rw [hperform] at hrun
      obtain ⟨pos, hrun⟩ := hrun
      refine ⟨pos, ?_⟩
      rw [interpret, attempt_eq hcompile hlisting, hrun]
      rfl

/-! ## Scripts one after the other -/

section Cons

variable {status : Status} {next : Session} (hinterpret : session.interpret source = (status, next))
  (sources : List String)

include hinterpret

theorem interpretAll_cons : session.interpretAll (source :: sources) =
    (status :: (next.interpretAll sources).1, (next.interpretAll sources).2) := by
  rw [interpretAll, hinterpret]

theorem untilFault_cons : session.untilFault (source :: sources) =
    source :: if status = .runtimeError then [] else next.untilFault sources := by
  rw [untilFault, interpretAll_cons hinterpret, List.findIdx_cons]
  by_cases hfault : status = .runtimeError
  · simp [hfault]
  · simp [hfault, untilFault, beq_false_of_ne hfault]

theorem play_cons : session.play (source :: sources) =
    if status = .runtimeError then ([status], next)
    else (status :: (next.play sources).1, (next.play sources).2) := by
  rw [play, untilFault_cons hinterpret, interpretAll_cons hinterpret]
  split <;> rfl

theorem accepted_cons (hconfig : next.config = session.config) :
    session.accepted (source :: sources) = (if session.accepts source then [source] else []) ++
      if status = .runtimeError then [] else next.accepted sources := by
  have haccepts : next.accepts = session.accepts := by
    funext other
    rw [accepts, accepts, hconfig]
  rw [accepted, untilFault_cons hinterpret, List.filter_cons, accepted, haccepts]
  cases session.accepts source <;> cases status <;> rfl

end Cons

/-- The statuses and the last state of a session are those of an outcome on its machine. -/
inductive Ends (statuses : List Status) (session : Session) :
    EStateM.Result RuntimeError Machine Unit → Prop
  | success {m : Machine} (hstatuses : .runtimeError ∉ statuses) (hmachine : session.machine = m) :
      Ends statuses session (.ok () m)
  | fault {e : RuntimeError} {m : Machine} {pos : Pos} (hstatuses : .runtimeError ∈ statuses)
      (hmachine : session.machine = m)
      (hfailure : session.lastFailure = some (.faulted ⟨e, pos⟩)) :
      Ends statuses session (.error e m)

theorem Ends.cons {statuses : List Status} {status : Status} {session : Session}
    {result : EStateM.Result RuntimeError Machine Unit} (hends : Ends statuses session result)
    (hstatus : status ≠ .runtimeError) : Ends (status :: statuses) session result := by
  cases hends with
  | success hstatuses hmachine =>
      exact .success (List.not_mem_cons_of_ne_of_not_mem hstatus.symm hstatuses) hmachine
  | fault hstatuses hmachine hfailure =>
      exact .fault (List.mem_cons_of_mem _ hstatuses) hmachine hfailure

/-- The first script counts if it is accepted, whether or not it fails. -/
theorem holds_of_accepts {tree : String → Program} {sources : List String} {pool : Pool}
    (haccepts : session.accepts source = true)
    (hpool : pool.Holds
      (Program.join ((session.accepted (source :: sources)).map tree)).constants) :
    pool.Holds (tree source).constants := by
  rw [accepted, untilFault, List.take_succ_cons, List.filter_cons_of_pos haccepts, List.map_cons,
    Program.constants_join_cons, Pool.holds_append] at hpool
  exact hpool.1

/-- A session does what the instructions of its accepted scripts do one after the other. -/
theorem ends_play {tree : String → Program} (sources : List String) {pool : Pool}
    (hlisting : session.config.listing = false) (hempty : session.machine.stack.values = #[])
    (htree : IsReading session.config.recovery tree)
    (hpool : pool.Holds (Program.join ((session.accepted sources).map tree)).constants) :
    Ends (session.play sources).1 (session.play sources).2
      (Machine.perform pool ((Program.join ((session.accepted sources).map tree)).instrs pool)
        session.machine) := by
  induction sources generalizing session with
  | nil => exact .success List.not_mem_nil rfl
  | cons source sources ih =>
      cases hcompile : compile session.config.recovery source with
      | error rejection =>
          have hinterpret := interpret_of_error hcompile
          have haccepted : session.accepted (source :: sources) =
              accepted { session with lastFailure := some (.rejected rejection) } sources := by
            rw [accepted_cons hinterpret sources rfl, accepts, hcompile]
            rfl
          rw [haccepted] at hpool ⊢
          rw [play_cons hinterpret, if_neg (by simp)]
          refine (ih ?_ ?_ ?_ hpool).cons (by simp)
          · exact hlisting
          · exact hempty
          · exact htree
      | ok chunk =>
          obtain ⟨_, hadmissible, own, hown, rfl⟩ := htree source chunk hcompile
          have haccepts : session.accepts source = true := by
            rw [accepts, hcompile]
            rfl
          have hsource := holds_of_accepts haccepts hpool
          have hstep := interpret_of_ok hcompile hlisting hempty hown hsource hadmissible.wellScoped
          cases hperform : Machine.perform pool ((tree source).instrs pool) session.machine with
          | ok _ m =>
              rw [hperform] at hstep
              obtain ⟨hinterpret, hempty'⟩ := hstep
              have haccepted : session.accepted (source :: sources) =
                  source :: accepted ⟨session.config, m, none⟩ sources := by
                rw [accepted_cons hinterpret sources rfl, haccepts]
                rfl
              rw [haccepted, List.map_cons] at hpool ⊢
              rw [Program.constants_join_cons, Pool.holds_append] at hpool
              rw [Program.instrs_join_cons, Machine.perform_append]
              rw [play_cons hinterpret, if_neg (by simp)]
              simp only [bind, EStateM.bind, hperform]
              -- The stack is empty again, so to clear it before the next script changes nothing.
              refine (ih ?_ ?_ ?_ hpool.2).cons (by simp)
              · exact hlisting
              · exact hempty'
              · exact htree
          | error e m =>
              rw [hperform] at hstep
              obtain ⟨pos, hinterpret⟩ := hstep
              have haccepted : session.accepted (source :: sources) = [source] := by
                rw [accepted_cons hinterpret sources rfl, haccepts]
                rfl
              rw [haccepted, List.map_singleton, Program.instrs_join_cons, Machine.perform_append]
              rw [play_cons hinterpret, if_pos rfl]
              simp only [bind, EStateM.bind, hperform]
              -- This is the last script that counts, and no later instruction is performed.
              exact .fault List.mem_cons_self rfl rfl

end Session

/-- Accepted scripts joined by line ends are accepted, unless they need too many constants together,
and have the tree that has theirs one after the other. -/
theorem exists_compile_intercalate {recovery : Bool} {tree : String → Program}
    (htree : IsReading recovery tree) {sources : List String}
    (haccepted : ∀ source ∈ sources, ∃ chunk, compile recovery source = .ok chunk)
    (hconstants : ∀ program, Program.Derives
      (Token.ofSource ("\n".intercalate sources)).toList program →
      program.constants.toFinset.card ≤ 65536) :
    ∃ (program : Program) (pool : Pool),
      compile recovery ("\n".intercalate sources) = .ok (program.lower pool) ∧
      pool.Holds program.constants ∧ program.WellScoped ∧
      program.bare = (Program.join (sources.map tree)).bare := by
  obtain ⟨program, hderives, hbare⟩ : ∃ program,
      Program.Derives (Token.ofSource ("\n".intercalate sources)).toList program ∧
        program.bare = (Program.join (sources.map tree)).bare := by
    refine Program.exists_derives_intercalate ?_
    rw [List.forall₂_map_right_iff, List.forall₂_same]
    intro source hsource
    obtain ⟨chunk, hchunk⟩ := haccepted source hsource
    exact (htree source chunk hchunk).1
  have hadmissible : program.Admissible := by
    rw [← Program.admissible_bare, hbare, Program.admissible_bare]
    refine Program.admissible_join ?_
    rw [List.forall_mem_map]
    intro source hsource
    obtain ⟨chunk, hchunk⟩ := haccepted source hsource
    exact (htree source chunk hchunk).2.1
  obtain ⟨pool, hpool⟩ := Pool.exists_addAll_empty_iff.mpr (hconstants program hderives)
  exact ⟨program, pool, compile_eq_ok_iff.mpr ⟨program, pool, hderives, hadmissible, hpool, rfl⟩,
    Pool.holds_of_addAll hpool, hadmissible.wellScoped, hbare⟩

theorem card_constants_le_of_compile {recovery : Bool} {source : String} {chunk : Chunk}
    (hcompile : compile recovery source = .ok chunk) {program : Program}
    (hprogram : Program.Derives (Token.ofSource source).toList program) :
    program.constants.toFinset.card ≤ 65536 := by
  obtain ⟨other, pool, hother, _, hpool, _⟩ := compile_eq_ok_iff.mp hcompile
  rw [hprogram.unique hother]
  exact Pool.exists_addAll_empty_iff.mp ⟨pool, hpool⟩

/-- A session equals a script. From any session with an empty stack, such as a fresh one, the
scripts up to the first that fails at run time can be joined by line ends, without those that are
rejected, and interpreted at once. The machine is then in the same state, its output and globals
among the rest, and the joined script succeeds unless one of the scripts failed, and then fails with
the same error. Rejected scripts change nothing but the reason that is kept. -/
theorem interpret_script {session : Session} (hlisting : session.config.listing = false)
    (hempty : session.machine.stack.values = #[]) {sources : List String}
    (hconstants : ∀ program,
      Program.Derives (Token.ofSource (session.script sources)).toList program →
      program.constants.toFinset.card ≤ 65536) :
    (session.interpret (session.script sources)).2.machine = (session.play sources).2.machine ∧
      (if .runtimeError ∈ (session.play sources).1 then
        (session.interpret (session.script sources)).1 = .runtimeError ∧
          ∃ e pos pos', (session.interpret (session.script sources)).2.lastFailure =
              some (.faulted ⟨e, pos⟩) ∧
            (session.play sources).2.lastFailure = some (.faulted ⟨e, pos'⟩)
      else (session.interpret (session.script sources)).1 = .ok) ∧
      ∀ (session : Session) (source : String) (rejection : Rejection),
        compile session.config.recovery source = .error rejection →
        session.interpret source =
          (.compileError, { session with lastFailure := some (.rejected rejection) }) := by
  obtain ⟨tree, htree⟩ := exists_isReading session.config.recovery
  have haccepted : ∀ source ∈ session.accepted sources, ∃ chunk,
      compile session.config.recovery source = .ok chunk :=
    fun source hsource => exists_of_isOk_compile (List.mem_filter.mp hsource).2
  obtain ⟨program, pool, hcompile, hpool, hscoped, hbare⟩ :=
    exists_compile_intercalate htree haccepted hconstants
  have hholds : pool.Holds (Program.join ((session.accepted sources).map tree)).constants := by
    rw [← Program.constants_bare, ← hbare, Program.constants_bare]
    exact hpool
  have hinstrs : program.instrs pool =
      (Program.join ((session.accepted sources).map tree)).instrs pool := by
    rw [← Program.instrs_bare, hbare, Program.instrs_bare]
  -- Both sides perform the same instructions, over the pool of the joined script.
  have hplay := Session.ends_play sources hlisting hempty htree hholds
  have hscript := Session.interpret_of_ok hcompile hlisting hempty hpool hpool hscoped
  rw [← hinstrs] at hplay
  rw [← and_assoc]
  refine ⟨?_, fun session source rejection => Session.interpret_of_error⟩
  cases hperform : Machine.perform pool (program.instrs pool) session.machine with
  | ok _ m =>
      rw [hperform] at hplay hscript
      obtain ⟨hscript : session.interpret (session.script sources) = _, _⟩ := hscript
      cases hplay with
      | success hstatuses hmachine =>
          rw [if_neg hstatuses, hscript]
          exact ⟨hmachine.symm, rfl⟩
  | error e m =>
      rw [hperform] at hplay hscript
      obtain ⟨pos, hscript : session.interpret (session.script sources) = _⟩ := hscript
      cases hplay with
      | fault hstatuses hmachine hfailure =>
          rw [if_pos hstatuses, hscript]
          exact ⟨hmachine.symm, rfl, e, pos, _, rfl, hfailure⟩

/-- Scripts of which the second is rejected and the fourth fails at run time. -/
def Session.sampleScripts : List String :=
  ["decl a = 1 # one", "print(", "\x7b decl b = a = a + 1; print(a + b); \x7d",
    "print(a); print(-nil)", "print(a)"]

theorem interpret_script_sample :
    (Session.init .default none).accepted Session.sampleScripts = ["decl a = 1 # one",
        "\x7b decl b = a = a + 1; print(a + b); \x7d", "print(a); print(-nil)"] ∧
      ((Session.init .default none).interpret
          ((Session.init .default none).script Session.sampleScripts)).2.machine =
        ((Session.init .default none).play Session.sampleScripts).2.machine ∧
      ((Session.init .default none).interpret
          ((Session.init .default none).script Session.sampleScripts)).1 = .runtimeError := by
  have hfault : .runtimeError ∈ ((Session.init .default none).play Session.sampleScripts).1 := by
    decide +kernel
  obtain ⟨chunk, hchunk⟩ : ∃ chunk, compile false
      ((Session.init .default none).script Session.sampleScripts) = .ok chunk :=
    exists_of_isOk_compile (by decide +kernel)
  obtain ⟨hmachine, hstatus, _⟩ := interpret_script rfl rfl fun program hprogram =>
    card_constants_le_of_compile hchunk hprogram
  rw [if_pos hfault] at hstatus
  exact ⟨by decide +kernel, hmachine, hstatus.1⟩

end Scriptlet
