import Scriptlet.Proofs.Enclosing.Evaluation
import Scriptlet.Proofs.Joining.Sessions
import Scriptlet.Proofs.Lowering.StackBound
import Scriptlet.Proofs.Sinks

/-! # A script in a block

A block with a script inside is a script, too, whose variables are all block variables. If the
script succeeds, the block keeps the scoping rules, needs no constants that the script does not
need, and prints the same.
-/

namespace Scriptlet

/-- The text of a block with a script inside, on lines of its own. -/
def blockOf (source : String) : String := "\x7b\n" ++ source ++ "\n\x7d"

/-- The script that consists of a block with another inside. -/
def Program.enclose (program : Program) : Program := ⟨[.block program.body .unknown], .unknown⟩

/-! ## The tree of the block -/

theorem blockOf_eq_intercalate (source : String) :
    blockOf source = "\n".intercalate ["\x7b", source, "\x7d"] := by
  simp [blockOf, String.intercalate_cons_cons, String.append_assoc]

/-- A token that is like the only one of a script. -/
theorem Token.exists_of_alike {token : Token} {tokens : List Token}
    (htokens : List.Forall₂ Token.Alike [token] tokens) :
    ∃ other, tokens = [other] ∧ other.kind = token.kind := by
  cases htokens with
  | cons halike hnil =>
      cases hnil
      exact ⟨_, rfl, halike.kind⟩

theorem Program.exists_derives_blockOf {source : String} {program : Program}
    (hderives : Derives (Token.ofSource source).toList program) :
    ∃ enclosed, Derives (Token.ofSource (blockOf source)).toList enclosed ∧
      enclosed.bare = program.enclose.bare := by
  have hopening : (Token.ofSource "\x7b").toList.dropLast =
      [⟨.leftBrace, "\x7b", ⟨1, 1⟩⟩] := by decide +kernel
  have hclosing : (Token.ofSource "\x7d").toList.dropLast =
      [⟨.rightBrace, "\x7d", ⟨1, 1⟩⟩] := by decide +kernel
  have hscans := Token.scans_ofSource (blockOf source)
  rw [blockOf_eq_intercalate] at hscans
  obtain ⟨parts, stop, htokens, hstop, hparts⟩ := hscans.exists_of_intercalate
  obtain _ | ⟨hfirst, _ | ⟨hmiddle, _ | ⟨hlast, _ | _⟩⟩⟩ := hparts
  rw [hopening] at hfirst
  rw [hclosing] at hlast
  obtain ⟨opening, rfl, hbrace⟩ := Token.exists_of_alike hfirst
  obtain ⟨closing, rfl, hbrace'⟩ := Token.exists_of_alike hlast
  obtain ⟨body, hbody, hbare⟩ := hderives.exists_body_of_alike hmiddle
  refine ⟨⟨[.block body closing.pos], stop.pos⟩, ?_, ?_⟩
  · have hblock := Stmt.Derives.block hbrace hbody hbrace' .nil
    rw [blockOf_eq_intercalate, htokens]
    simpa using Program.Derives.intro hblock hstop
  · simp only [bare, enclose, Stmt.bareAll, Stmt.bare, hbare]

/-! ## The constants of the block -/

theorem append_subset_append {α : Type} {first first' second second' : List α}
    (hfirst : first ⊆ first') (hsecond : second ⊆ second') :
    first ++ second ⊆ first' ++ second' :=
  List.append_subset.mpr ⟨List.subset_append_of_subset_left _ hfirst,
    List.subset_append_of_subset_right _ hsecond⟩

/-- With more block variables fewer names are kept as constants. -/
theorem Blocks.pooledName_subset {names names' : List String} (hnames : names ⊆ names')
    (name : String) : Blocks.pooledName names' name ⊆ Blocks.pooledName names name := by
  by_cases hname : name ∈ names'
  · simp [Blocks.pooledName, hname]
  · have hother : name ∉ names := fun h => hname (hnames h)
    simp [Blocks.pooledName, hname, hother]

theorem Expr.constants_subset {names names' : List String} (hnames : names ⊆ names') (e : Expr) :
    e.constants names' ⊆ e.constants names := by
  induction e with
  | literal => exact List.Subset.refl _
  | var name => exact Blocks.pooledName_subset hnames name
  | assign name value ih => exact append_subset_append (Blocks.pooledName_subset hnames name) ih
  | group inner close ih => exact ih
  | unary op operand ih => exact ih
  | binary op left right ihl ihr => exact append_subset_append ihl ihr

theorem Expr.constantsOptional_subset {names names' : List String} (hnames : names ⊆ names')
    (e : Option Expr) : Expr.constantsOptional names' e ⊆ Expr.constantsOptional names e := by
  cases e with
  | none => exact List.Subset.refl _
  | some e => exact e.constants_subset hnames

namespace Blocks

variable (blocks : Blocks) (names : List String)

theorem names_append : Blocks.names (blocks ++ [names]) = blocks.names ++ names := by
  simp [Blocks.names]

/-- What is a global outside all blocks is a variable of the block around all others. -/
theorem exists_after_append (s : Stmt) :
    ∃ names', Blocks.after (blocks ++ [names]) s = blocks.after s ++ [names'] := by
  cases s with
  | expr | print | block => exact ⟨names, rfl⟩
  | decl name pos initial stop =>
      cases blocks with
      | nil => exact ⟨name :: names, rfl⟩
      | cons innermost outer => exact ⟨names, rfl⟩

end Blocks

mutual

/-- In one more block around all others a statement needs no more constants. -/
theorem Stmt.constants_append_subset (blocks : Blocks) (names : List String) :
    ∀ s : Stmt, s.constants (blocks ++ [names]) ⊆ s.constants blocks
  | .expr value _ =>
      value.constants_subset (blocks.names_append names ▸ List.subset_append_left _ _)
  | .print argument _ _ =>
      Expr.constantsOptional_subset
        (blocks.names_append names ▸ List.subset_append_left _ _) argument
  | .decl name pos initial stop => by
      obtain ⟨names', hafter⟩ := blocks.exists_after_append names (.decl name pos initial stop)
      have hdeclare : Blocks.declare name (blocks ++ [names]) = blocks.declare name ++ [names'] :=
        hafter
      rw [Stmt.constants, Stmt.constants, if_neg (by simp), List.nil_append, hdeclare,
        Blocks.names_append]
      apply List.subset_append_of_subset_right
      exact Expr.constantsOptional_subset (List.subset_append_left _ _) initial
  | .block body _ => Stmt.constantsAll_append_subset ([] :: blocks) names body

theorem Stmt.constantsAll_append_subset (blocks : Blocks) (names : List String) :
    ∀ body : List Stmt,
      Stmt.constantsAll (blocks ++ [names]) body ⊆ Stmt.constantsAll blocks body
  | [] => List.Subset.refl _
  | s :: rest => by
      obtain ⟨names', hafter⟩ := blocks.exists_after_append names s
      rw [Stmt.constantsAll, Stmt.constantsAll, hafter]
      exact append_subset_append (Stmt.constants_append_subset blocks names s)
        (Stmt.constantsAll_append_subset (blocks.after s) names' rest)

end

namespace Program

variable {program : Program}

theorem constants_enclose_subset (program : Program) :
    program.enclose.constants ⊆ program.constants := by
  have hbody : Stmt.constantsAll ([] ++ [[]]) program.body ⊆ Stmt.constantsAll [] program.body :=
    Stmt.constantsAll_append_subset [] [] program.body
  simpa [constants, enclose, Stmt.constantsAll, Stmt.constants] using hbody

theorem peak_enclose_le (program : Program) : program.enclose.peak ≤ program.decls := by
  have hpeak := Stmt.peakAll_le_decls [[]] program.body
  simpa [peak, enclose, Stmt.peakAll, Stmt.peak, Blocks.names, Blocks.after_nil, decls] using hpeak

theorem admissible_enclose (hnesting : program.nesting < Parser.maxNesting)
    (hdecls : program.decls ≤ Scope.capacity) (hscoped : Stmt.WellScopedAll [[]] program.body) :
    program.enclose.Admissible where
  nesting := max_le hnesting (Nat.zero_le _)
  wellScoped := ⟨hscoped, trivial⟩
  peak := program.peak_enclose_le.trans hdecls

/-- A script that succeeds without globals to start with does so in a block, prints the same and
leaves no global. -/
theorem eval_enclose (hscoped : program.WellScoped) {env : Env}
    (heval : program.eval ⟨[], .empty, ""⟩ = .ok () env) :
    program.enclose.eval ⟨[], .empty, ""⟩ = .ok () ⟨[], .empty, env.printed⟩ ∧
      Stmt.WellScopedAll [[]] program.body := by
  have hnodup : Globals.empty.names.Nodup := List.nodup_nil
  obtain ⟨hbody, _, hscoped'⟩ := Stmt.evalAll_enclose rfl hnodup hscoped heval
  rw [show (⟨[], .empty, ""⟩ : Env).enclose = ⟨[], .empty, ""⟩ from rfl] at hbody
  refine ⟨?_, hscoped'⟩
  have hblock : (Stmt.block program.body .unknown).eval ⟨[], .empty, ""⟩ =
      .ok () ⟨[], .empty, env.printed⟩ := by
    rw [Stmt.eval_block_eq]
    simp only [Bind.bind, EStateM.bind, hbody, Env.closeBlock, List.length_nil, Nat.sub_zero,
      List.drop_length]
    rfl
  simp only [eval, enclose, List.forM, Bind.bind, EStateM.bind, Stmt.evalTop, hblock]
  rfl

end Program

/-! ## Sessions -/

/-- A run that succeeds is an evaluation that succeeds. -/
theorem Program.exists_eval_of_run {program : Program} {pool : Pool}
    (hholds : pool.Holds program.constants) (hscoped : program.WellScoped) {m m' : Machine}
    (hrun : m.run (program.lower pool) = (.ok (), m')) :
    ∃ env, program.eval ⟨[], m.globals, ""⟩ = .ok () env ∧ m'.Shows m.sink env := by
  rcases program.run_lower hholds hscoped m with ⟨e, pos, hfault, _⟩ | heval
  · rw [hrun] at hfault
    cases hfault
  · rw [hrun] at heval
    cases hprogram : program.eval ⟨[], m.globals, ""⟩ with
    | ok result env =>
        rw [hprogram] at heval
        exact ⟨env, rfl, heval.2⟩
    | error e env =>
        rw [hprogram] at heval
        obtain ⟨⟨pos, hfault⟩, _⟩ := heval
        cases hfault

/-- With room on the stack and for output, an evaluation that succeeds is a run that succeeds. -/
theorem Program.exists_run_of_eval {program : Program} {pool : Pool}
    (hholds : pool.Holds program.constants) (hadmissible : program.Admissible) {m : Machine}
    (hroom : program.peak + Parser.maxNesting ≤ m.stack.limit) (hsink : m.sink.limit = none)
    {env : Env} (heval : program.eval ⟨[], m.globals, ""⟩ = .ok () env) :
    ∃ m', m.run (program.lower pool) = (.ok (), m') ∧ m'.Shows m.sink env := by
  rcases program.run_lower hholds hadmissible.wellScoped m with ⟨e, pos, hfault, hexhausted⟩ | hrun
  · cases e with
    | stackOverflow limit =>
        exact absurd rfl (error_ne_stackOverflow hadmissible hholds hroom
          (Prod.ext hfault rfl : m.run (program.lower pool) = (_, _)) limit)
    | output reason => exact absurd hsink hexhausted
    | _ => exact hexhausted.elim
  · rw [heval] at hrun
    exact ⟨_, Prod.ext hrun.1 rfl, hrun.2⟩

theorem Session.exists_run_of_interpret {session : Session} {source : String}
    (hlisting : session.config.listing = false) (hok : (session.interpret source).1 = .ok) :
    ∃ chunk, compile session.config.recovery source = .ok chunk ∧
      session.machine.run chunk = (.ok (), (session.interpret source).2.machine) := by
  cases hcompile : compile session.config.recovery source with
  | error rejection =>
      rw [interpret_of_error hcompile] at hok
      cases hok
  | ok chunk =>
      refine ⟨chunk, rfl, ?_⟩
      rw [interpret, attempt_eq hcompile hlisting] at hok ⊢
      cases hrun : session.machine.run chunk with
      | mk result m =>
          cases result with
          | ok result => simp [Except.mapError]
          | error fault => simp [hrun, Except.mapError, Failure.status] at hok

theorem Session.interpret_of_run {session : Session} {source : String} {chunk : Chunk}
    {m : Machine} (hcompile : compile session.config.recovery source = .ok chunk)
    (hlisting : session.config.listing = false)
    (hrun : session.machine.run chunk = (.ok (), m)) :
    session.interpret source = (.ok, ⟨session.config, m, none⟩) := by
  rw [interpret, attempt_eq hcompile hlisting, hrun]
  rfl

/-- A block with a script inside is accepted if it keeps the limits and the scoping rules. -/
theorem Program.exists_compile_blockOf {source : String} {program : Program} {pool : Pool}
    (hderives : Derives (Token.ofSource source).toList program)
    (hpool : Pool.empty.addAll program.constants = some pool)
    (hnesting : program.nesting < Parser.maxNesting) (hdecls : program.decls ≤ Scope.capacity)
    (hscoped : Stmt.WellScopedAll [[]] program.body) :
    ∃ (enclosed : Program) (pool' : Pool),
      (∀ recovery, compile recovery (blockOf source) = .ok (enclosed.lower pool')) ∧
        pool'.Holds enclosed.constants ∧ enclosed.Admissible ∧
        enclosed.bare = program.enclose.bare := by
  obtain ⟨enclosed, hderives', hbare⟩ := exists_derives_blockOf hderives
  have hadmissible : enclosed.Admissible := by
    rw [← admissible_bare, hbare, admissible_bare]
    exact admissible_enclose hnesting hdecls hscoped
  have hconstants : enclosed.constants ⊆ program.constants := by
    rw [← constants_bare, hbare, constants_bare]
    exact program.constants_enclose_subset
  have hfew : enclosed.constants.toFinset.card ≤ 65536 := by
    refine (Finset.card_le_card ?_).trans (Pool.exists_addAll_empty_iff.mp ⟨pool, hpool⟩)
    exact fun value hvalue => List.mem_toFinset.mpr (hconstants (List.mem_toFinset.mp hvalue))
  obtain ⟨pool', hpool'⟩ := Pool.exists_addAll_empty_iff.mpr hfew
  exact ⟨enclosed, pool', fun recovery => compile_eq_ok_iff.mpr ⟨enclosed, pool', hderives',
    hadmissible, hpool', rfl⟩, Pool.holds_of_addAll hpool', hadmissible, hbare⟩

/-- Globals and block variables agree. A script that succeeds in a fresh session, with at most 255
levels of nesting and 65536 declarations, can be put into a block: it compiles, and a fresh session
with room on the stack and for the output interprets it with success, prints the same and has no
global afterwards. -/
theorem interpret_blockOf {config config' : Config} {outputLimit outputLimit' : Option Nat}
    {source : String} {program : Program} (hlisting : config.listing = false)
    (hok : ((Session.init config outputLimit).interpret source).1 = .ok)
    (hderives : Program.Derives (Token.ofSource source).toList program)
    (hnesting : program.nesting ≤ 255) (hdecls : program.decls ≤ 65536)
    (hlisting' : config'.listing = false) (hstack : program.decls + 256 ≤ config'.stackLimit)
    (hsink : ((Session.init config outputLimit).interpret source).2.machine.HasRoom outputLimit') :
    (∀ recovery, ∃ chunk, compile recovery (blockOf source) = .ok chunk) ∧
      ((Session.init config' outputLimit').interpret (blockOf source)).1 = .ok ∧
      ((Session.init config' outputLimit').interpret (blockOf source)).2.machine.sink.written =
        ((Session.init config outputLimit).interpret source).2.machine.sink.written ∧
      ∀ name,
        ((Session.init config' outputLimit').interpret (blockOf source)).2.global? name = none := by
  -- The script succeeds, so evaluating its tree does.
  obtain ⟨chunk, hcompile, hrun⟩ := Session.exists_run_of_interpret hlisting hok
  obtain ⟨other, pool, hother, hadmissible, hpool, rfl⟩ := compile_eq_ok_iff.mp hcompile
  obtain rfl := hderives.unique hother
  obtain ⟨env, heval, hshows⟩ := Program.exists_eval_of_run (Pool.holds_of_addAll hpool)
    hadmissible.wellScoped hrun
  obtain ⟨heval', hscoped⟩ := Program.eval_enclose hadmissible.wellScoped heval
  obtain ⟨enclosed, pool', hcompile', hholds, hadmissible', hbare⟩ :=
    Program.exists_compile_blockOf hderives hpool (Nat.lt_succ_of_le hnesting) hdecls hscoped
  have hpeak : enclosed.peak ≤ program.decls := by
    rw [← Program.peak_bare, hbare, Program.peak_bare]
    exact program.peak_enclose_le
  rw [← Program.eval_bare, ← hbare, Program.eval_bare] at heval'
  -- The block succeeds where output is not limited, and so with any limit that its output keeps.
  obtain ⟨m, hrun', hshows'⟩ := Program.exists_run_of_eval (m := .init config'.stackLimit none)
    hholds hadmissible' ((Nat.add_le_add_right hpeak _).trans hstack) rfl heval'
  have hwritten : m.sink.written =
      ((Session.init config outputLimit).interpret source).2.machine.sink.written := by
    rw [hshows'.sink, hshows.sink]
    rfl
  have hroom : m.HasRoom outputLimit' := by
    rwa [Machine.HasRoom, hwritten]
  have hsession : (Session.init config' outputLimit').machine.run (enclosed.lower pool') =
      (.ok (), m.relimit outputLimit') := Machine.run_relimit hrun' hroom
  rw [Session.interpret_of_run (hcompile' _) hlisting' hsession]
  refine ⟨fun recovery => ⟨_, hcompile' recovery⟩, rfl, hwritten, ?_⟩
  intro name
  have hglobals : m.globals = .empty := hshows'.globals
  simp [Session.global?, Machine.relimit, Machine.withSink, hglobals, Globals.get?, Globals.empty]

/-- Globals that are assigned, shadowed in a block and used in the initial values of others. -/
def Program.globalScript : String :=
  "decl a = 1\ndecl b = a = a + 1 # two\n\x7b decl a = b; b = a * 3; print(a); \x7d\nprint(a + b)"

theorem interpret_blockOf_globals :
    ((Session.init ⟨300, true, false⟩ (some 4)).interpret (blockOf Program.globalScript)).1 = .ok ∧
      ((Session.init ⟨300, true, false⟩ (some 4)).interpret
          (blockOf Program.globalScript)).2.machine.sink.written = "2\n8\n".toUTF8 ∧
      ((Session.init ⟨300, true, false⟩ (some 4)).interpret
          (blockOf Program.globalScript)).2.global? "a" = none := by
  have hok : ((Session.init .default none).interpret Program.globalScript).1 = .ok := by
    decide +kernel
  have hwritten : ((Session.init .default none).interpret
      Program.globalScript).2.machine.sink.written = "2\n8\n".toUTF8 := by
    decide +kernel
  obtain ⟨program, hderives, hcheck⟩ := exists_derives_of_read false Program.globalScript
    (fun program => program.nesting ≤ 255 && program.decls ≤ 44) (by decide +kernel)
  obtain ⟨hnesting, hdecls⟩ := Bool.and_eq_true_iff.mp hcheck
  have hnesting := of_decide_eq_true hnesting
  have hdecls := of_decide_eq_true hdecls
  have hroom : ((Session.init .default none).interpret
      Program.globalScript).2.machine.HasRoom (some 4) := by
    rintro size ⟨⟩
    rw [hwritten]
    decide +kernel
  have hlisting : (Config.mk 300 true false).listing = false := rfl
  obtain ⟨_, hok', hwritten', hglobal⟩ := interpret_blockOf rfl hok hderives hnesting
    (hdecls.trans (by decide)) hlisting (Nat.add_le_add_right hdecls 256) hroom
  exact ⟨hok', hwritten'.trans hwritten, hglobal "a"⟩

end Scriptlet
