import Mathlib.Data.List.Nodup
import Scriptlet.Proofs.Lowering.Simulation

/-! # Globals as block variables

In a block around a whole script the globals of the script are variables of that block. Evaluation
that succeeds with globals goes the same way with block variables in their place, and shows that
the scoping rules for block variables are kept: a global that could be declared was new, and the
names in its initial value were bound before it.
-/

namespace Scriptlet

namespace Globals

/-- The names that are bound, the latest first. -/
def names (globals : Globals) : List String := globals.bindings.map Prod.fst

theorem get?_eq_none_iff {globals : Globals} {name : String} :
    globals.get? name = none ↔ name ∉ globals.names := by
  rw [get?, List.lookup_eq_none_iff]
  simp only [names, List.mem_map, bne_iff_ne, ne_eq, not_exists, not_and]
  exact ⟨fun h p hp heq => h p hp heq.symm, fun h p hp heq => h p hp heq.symm⟩

@[simp] theorem names_assign (globals : Globals) (name : String) (value : Value) :
    (globals.assign name value).names = globals.names := by
  simp only [names, assign, List.map_map]
  congr 1
  funext binding
  by_cases hname : binding.1 = name <;> simp [hname]

@[simp] theorem names_declare (globals : Globals) (name : String) (value : Value) :
    (globals.declare name value).names = name :: globals.names := rfl

end Globals

theorem Eval.bind_eq_ok {α β : Type} {x : Eval α} {f : α → Eval β} {env env'' : Env} {b : β}
    (heval : (x >>= f) env = .ok b env'') :
    ∃ a env', x env = .ok a env' ∧ f a env' = .ok b env'' := by
  simp only [Bind.bind, EStateM.bind] at heval
  cases hx : x env with
  | ok a env' =>
      rw [hx] at heval
      exact ⟨a, env', rfl, heval⟩
  | error e env' =>
      rw [hx] at heval
      cases heval

/-! ## Evaluation that declares nothing -/

namespace Env

/-- The same variables are bound, perhaps to other values. -/
structure SameNames (env env' : Env) : Prop where
  locals : env'.locals.map Prod.fst = env.locals.map Prod.fst
  globals : env'.globals.names = env.globals.names

/-- A name is bound, as a block variable or as a global. -/
def Binds (env : Env) (name : String) : Prop :=
  name ∈ env.locals.map Prod.fst ∨ name ∈ env.globals.names

variable {env env' : Env} {name : String} {value : Value}

theorem SameNames.refl (env : Env) : SameNames env env := ⟨rfl, rfl⟩

theorem SameNames.trans {env'' : Env} (hfirst : SameNames env env')
    (hsecond : SameNames env' env'') : SameNames env env'' :=
  ⟨hsecond.locals.trans hfirst.locals, hsecond.globals.trans hfirst.globals⟩

theorem SameNames.locals_eq_nil (hsame : SameNames env env') (hlocals : env.locals = []) :
    env'.locals = [] := by
  have hnames := hsame.locals
  rw [hlocals] at hnames
  exact List.map_eq_nil_iff.mp hnames

theorem SameNames.binds (hsame : SameNames env env') (hbinds : env'.Binds name) :
    env.Binds name := by
  rwa [Binds, hsame.locals, hsame.globals] at hbinds

theorem lookup_eq_none_iff {locals : List (String × Value)} :
    locals.lookup name = none ↔ name ∉ locals.map Prod.fst :=
  @Globals.get?_eq_none_iff ⟨locals⟩ name

theorem binds_of_lookup (hlookup : env.locals.lookup name = some value) : env.Binds name := by
  refine .inl (by_contra fun hname => ?_)
  rw [lookup_eq_none_iff.mpr hname] at hlookup
  contradiction

theorem binds_of_get? (hget : env.globals.get? name = some value) : env.Binds name := by
  refine .inr (by_contra fun hname => ?_)
  rw [Globals.get?_eq_none_iff.mpr hname] at hget
  contradiction

theorem read_eq_ok (hread : read name env = .ok value env') :
    env = env' ∧ (env.locals.lookup name = some value ∨
      env.locals.lookup name = none ∧ env.globals.get? name = some value) := by
  unfold read at hread
  split at hread
  next hlookup =>
    obtain ⟨rfl, rfl⟩ := EStateM.Result.ok.inj hread
    exact ⟨rfl, .inl hlookup⟩
  next hlookup hget =>
    obtain ⟨rfl, rfl⟩ := EStateM.Result.ok.inj hread
    exact ⟨rfl, .inr ⟨hlookup, hget⟩⟩
  next => cases hread

theorem write_eq_ok (hwrite : write name value env = .ok () env') :
    (∃ old, env.locals.lookup name = some old ∧
        env' = { env with locals := setLocal name value env.locals }) ∨
      ∃ old, env.locals.lookup name = none ∧ env.globals.get? name = some old ∧
        env' = { env with globals := env.globals.assign name value } := by
  unfold write at hwrite
  split at hwrite
  next _ old hlookup =>
    obtain ⟨_, rfl⟩ := EStateM.Result.ok.inj hwrite
    exact .inl ⟨old, hlookup, rfl⟩
  next old hlookup hget =>
    obtain ⟨_, rfl⟩ := EStateM.Result.ok.inj hwrite
    exact .inr ⟨old, hlookup, hget, rfl⟩
  next => cases hwrite

theorem result_eq_ok {outcome : Except ValueError Value}
    (hresult : result outcome env = .ok value env') : outcome = .ok value ∧ env = env' := by
  cases outcome with
  | ok value =>
      obtain ⟨rfl, rfl⟩ := EStateM.Result.ok.inj hresult
      exact ⟨rfl, rfl⟩
  | error e => cases hresult

end Env

/-- An expression that has a value binds no name, and all of its names are bound. -/
theorem Expr.sameNames_of_eval {e : Expr} {env env' : Env} {value : Value}
    (heval : e.eval env = .ok value env') :
    env.SameNames env' ∧ ∀ name ∈ e.names, env.Binds name := by
  induction e generalizing env env' value with
  | literal literal pos =>
      obtain ⟨_, rfl⟩ := EStateM.Result.ok.inj heval
      exact ⟨.refl env, by simp [Expr.names]⟩
  | var name pos =>
      obtain ⟨rfl, hbound⟩ := Env.read_eq_ok heval
      refine ⟨.refl env, ?_⟩
      simp only [Expr.names, List.mem_singleton, forall_eq]
      rcases hbound with hlookup | ⟨_, hget⟩
      · exact Env.binds_of_lookup hlookup
      · exact Env.binds_of_get? hget
  | assign name e ih =>
      obtain ⟨v, env₁, hvalue, hrest⟩ := Eval.bind_eq_ok heval
      obtain ⟨_, env₂, hwrite, hpure⟩ := Eval.bind_eq_ok hrest
      obtain ⟨_, rfl⟩ := EStateM.Result.ok.inj hpure
      obtain ⟨hsame, hbinds⟩ := ih hvalue
      rw [Expr.names, List.forall_mem_cons]
      rcases Env.write_eq_ok hwrite with ⟨old, hlookup, rfl⟩ | ⟨old, _, hget, rfl⟩
      · exact ⟨hsame.trans ⟨Env.map_fst_setLocal _ _ _, rfl⟩,
          hsame.binds (Env.binds_of_lookup hlookup), hbinds⟩
      · exact ⟨hsame.trans ⟨rfl, Globals.names_assign _ _ _⟩,
          hsame.binds (Env.binds_of_get? hget), hbinds⟩
  | group inner close ih => exact ih heval
  | unary op operand ih =>
      obtain ⟨a, env₁, hoperand, hresult⟩ := Eval.bind_eq_ok heval
      obtain ⟨_, rfl⟩ := Env.result_eq_ok hresult
      exact ih hoperand
  | binary op left right ihl ihr =>
      obtain ⟨a, env₁, hleft, hrest⟩ := Eval.bind_eq_ok heval
      obtain ⟨b, env₂, hright, hresult⟩ := Eval.bind_eq_ok hrest
      obtain ⟨_, rfl⟩ := Env.result_eq_ok hresult
      obtain ⟨hsamel, hbindsl⟩ := ihl hleft
      obtain ⟨hsamer, hbindsr⟩ := ihr hright
      refine ⟨hsamel.trans hsamer, ?_⟩
      rw [Expr.names, List.forall_mem_append]
      exact ⟨hbindsl, fun name hname => hsamel.binds (hbindsr name hname)⟩

theorem Expr.sameNames_of_evalOrNil {e : Option Expr} {env env' : Env} {value : Value}
    (heval : Expr.evalOrNil e env = .ok value env') :
    env.SameNames env' ∧ ∀ name ∈ Expr.namesOptional e, env.Binds name := by
  cases e with
  | none =>
      obtain ⟨_, rfl⟩ := EStateM.Result.ok.inj heval
      exact ⟨.refl env, by simp [Expr.namesOptional]⟩
  | some e => exact e.sameNames_of_eval heval

/-! ## Evaluation inside an outermost block -/

/-- The environment in which the globals are the variables of a block around all others. -/
def Env.enclose (env : Env) : Env := ⟨env.locals ++ env.globals.bindings, .empty, env.printed⟩

/-- Evaluation that succeeds declares no global and goes the same way where the globals are block
variables. -/
def Encloses {α : Type} (x : Eval α) : Prop :=
  ∀ ⦃env a env'⦄, x env = .ok a env' → env.globals.names.Nodup →
    x env.enclose = .ok a env'.enclose ∧ env'.globals.names = env.globals.names

namespace Encloses

variable {α β : Type}

theorem bind {x : Eval α} {f : α → Eval β} (hx : Encloses x) (hf : ∀ a, Encloses (f a)) :
    Encloses (x >>= f) := by
  intro env b env'' heval hnodup
  obtain ⟨a, env', hfirst, hsecond⟩ := Eval.bind_eq_ok heval
  obtain ⟨hfirst', hnames⟩ := hx hfirst hnodup
  obtain ⟨hsecond', hnames'⟩ := hf a hsecond (hnames ▸ hnodup)
  refine ⟨?_, hnames'.trans hnames⟩
  simp only [Bind.bind, EStateM.bind, hfirst', hsecond']

theorem pure (a : α) : Encloses (Pure.pure a) := by
  intro env b env' heval _
  obtain ⟨rfl, rfl⟩ := EStateM.Result.ok.inj heval
  exact ⟨rfl, rfl⟩

theorem result (outcome : Except ValueError Value) : Encloses (Env.result outcome) := by
  intro env value env' heval _
  obtain ⟨rfl, rfl⟩ := Env.result_eq_ok heval
  exact ⟨rfl, rfl⟩

theorem print (value : Value) : Encloses (Env.print value) := by
  intro env _ env' heval _
  obtain ⟨_, rfl⟩ := EStateM.Result.ok.inj heval
  exact ⟨rfl, rfl⟩

theorem declareLocal (name : String) (value : Value) : Encloses (Env.declareLocal name value) := by
  intro env _ env' heval _
  obtain ⟨_, rfl⟩ := EStateM.Result.ok.inj heval
  exact ⟨rfl, rfl⟩

end Encloses

namespace Env

variable {name : String} {value : Value} {inner outer : List (String × Value)}

theorem setLocal_append_left (hname : name ∈ inner.map Prod.fst) :
    setLocal name value (inner ++ outer) = setLocal name value inner ++ outer := by
  induction inner with
  | nil => contradiction
  | cons binding rest ih =>
      by_cases hfirst : binding.1 = name
      · simp [setLocal, hfirst]
      · have hrest : name ∈ rest.map Prod.fst :=
          (List.mem_cons.mp hname).resolve_left (Ne.symm hfirst)
        simp [setLocal, hfirst, ih hrest]

theorem setLocal_append_right (hname : name ∉ inner.map Prod.fst) :
    setLocal name value (inner ++ outer) = inner ++ setLocal name value outer := by
  induction inner with
  | nil => rfl
  | cons binding rest ih =>
      obtain ⟨hfirst, hrest⟩ := List.ne_and_not_mem_of_not_mem_cons hname
      simp [setLocal, Ne.symm hfirst, ih hrest]

theorem setLocal_of_not_mem (hname : name ∉ inner.map Prod.fst) :
    setLocal name value inner = inner := by
  have happend : setLocal name value (inner ++ []) = inner ++ setLocal name value [] :=
    setLocal_append_right hname
  rwa [List.append_nil, setLocal, List.append_nil] at happend

/-- Where names are bound once, a global is assigned as a block variable is. -/
theorem setLocal_bindings {globals : Globals} (hnodup : globals.names.Nodup) :
    setLocal name value globals.bindings = (globals.assign name value).bindings := by
  obtain ⟨bindings⟩ := globals
  induction bindings with
  | nil => rfl
  | cons binding rest ih =>
      obtain ⟨hfirst, hrest⟩ := List.nodup_cons.mp hnodup
      by_cases hname : binding.1 = name
      · have hlast : setLocal name value rest = rest := setLocal_of_not_mem (hname ▸ hfirst)
        have hassign := ih hrest
        rw [hlast] at hassign
        simp only [Globals.assign, List.map_cons] at hassign ⊢
        rw [← hassign]
        simp [setLocal, hname]
      · have hassign := ih hrest
        simp only [Globals.assign, List.map_cons] at hassign ⊢
        rw [← hassign]
        simp [setLocal, hname]

theorem lookup_enclose (env : Env) (name : String) :
    env.enclose.locals.lookup name = (env.locals.lookup name).or (env.globals.get? name) :=
  List.lookup_append

theorem encloses_read (name : String) : Encloses (read name) := by
  intro env value env' heval _
  obtain ⟨rfl, hbound⟩ := read_eq_ok heval
  have hlookup : env.enclose.locals.lookup name = some value := by
    rw [lookup_enclose]
    rcases hbound with hlocal | ⟨hlocal, hglobal⟩
    · rw [hlocal, Option.some_or]
    · rw [hlocal, hglobal, Option.none_or]
  refine ⟨?_, rfl⟩
  simp only [read, hlookup]

theorem encloses_write (name : String) (value : Value) : Encloses (write name value) := by
  intro env _ env' heval hnodup
  rcases write_eq_ok heval with ⟨old, hlocal, rfl⟩ | ⟨old, hlocal, hglobal, rfl⟩
  · have hlookup : env.enclose.locals.lookup name = some old := by
      rw [lookup_enclose, hlocal, Option.some_or]
    have hname : name ∈ env.locals.map Prod.fst := by
      by_contra hname
      rw [lookup_eq_none_iff.mpr hname] at hlocal
      contradiction
    refine ⟨?_, rfl⟩
    simp only [write, hlookup]
    rw [enclose, setLocal_append_left hname]
    rfl
  · have hlookup : env.enclose.locals.lookup name = some old := by
      rw [lookup_enclose, hlocal, hglobal, Option.none_or]
    refine ⟨?_, Globals.names_assign _ _ _⟩
    simp only [write, hlookup]
    rw [enclose, setLocal_append_right (lookup_eq_none_iff.mp hlocal), setLocal_bindings hnodup]
    rfl

/-- Closing a block leaves the variables of the block around all others alone. -/
theorem closeBlock_enclose {env : Env} {outer count : Nat}
    (hcount : env.globals.bindings.length = count) :
    closeBlock (outer + count) env.enclose =
      .ok () { env with locals := env.locals.drop (env.locals.length - outer) }.enclose := by
  have hdrop : (env.locals ++ env.globals.bindings).length - (outer + count) =
      env.locals.length - outer := by
    rw [List.length_append]
    omega
  simp only [closeBlock, enclose, hdrop]
  rw [List.drop_append_of_le_length (Nat.sub_le _ _)]

end Env

theorem Expr.encloses_eval (e : Expr) : Encloses e.eval := by
  induction e with
  | literal value pos => exact .pure value
  | var name pos => exact Env.encloses_read name
  | assign name e ih =>
      exact ih.bind fun value => (Env.encloses_write name value).bind fun _ => .pure value
  | group inner close ih => exact ih
  | unary op operand ih => exact ih.bind fun a => .result _
  | binary op left right ihl ihr => exact ihl.bind fun a => ihr.bind fun b => .result _

theorem Expr.encloses_evalOrNil (e : Option Expr) : Encloses (Expr.evalOrNil e) := by
  cases e with
  | none => exact .pure Value.nil
  | some e => exact e.encloses_eval

theorem Stmt.eval_block_eq (body : List Stmt) (close : Pos) (env : Env) :
    (Stmt.block body close).eval env =
      (Stmt.evalAll body >>= fun _ => Env.closeBlock env.locals.length) env := by
  rw [Stmt.eval]
  rfl

mutual

theorem Stmt.encloses_eval : ∀ s : Stmt, Encloses s.eval
  | .expr value _ => by
      rw [Stmt.eval]
      exact value.encloses_eval.bind fun _ => .pure ()
  | .print argument _ _ => by
      rw [Stmt.eval]
      exact (Expr.encloses_evalOrNil argument).bind .print
  | .decl name _ initial _ => by
      rw [Stmt.eval]
      exact (Expr.encloses_evalOrNil initial).bind (.declareLocal name)
  | .block body close => by
      -- The block around all others has as many variables at the end of this one as before it.
      intro env _ env' heval hnodup
      rw [Stmt.eval_block_eq] at heval ⊢
      obtain ⟨_, env₁, hbody, hclose⟩ := Eval.bind_eq_ok heval
      obtain ⟨_, rfl⟩ := EStateM.Result.ok.inj hclose
      obtain ⟨hbody', hnames⟩ := Stmt.encloses_evalAll body hbody hnodup
      have hcount : env₁.globals.bindings.length = env.globals.bindings.length := by
        simpa [Globals.names] using congrArg List.length hnames
      refine ⟨?_, hnames⟩
      have houter : env.enclose.locals.length =
          env.locals.length + env.globals.bindings.length := List.length_append
      simp only [Bind.bind, EStateM.bind, hbody', houter]
      exact Env.closeBlock_enclose hcount

theorem Stmt.encloses_evalAll : ∀ body : List Stmt, Encloses (Stmt.evalAll body)
  | [] => .pure ()
  | s :: rest => by
      rw [Stmt.evalAll]
      exact (Stmt.encloses_eval s).bind fun _ => Stmt.encloses_evalAll rest

end

/-! ## Whole scripts -/

/-- The scoping rules concern the innermost block alone. -/
theorem Blocks.exists_after_eq (innermost : List String) (s : Stmt) :
    ∃ names, ∀ outer : Blocks, Blocks.after (innermost :: outer) s = names :: outer := by
  cases s with
  | decl name pos initial stop => exact ⟨name :: innermost, fun _ => rfl⟩
  | expr | print | block => exact ⟨innermost, fun _ => rfl⟩

mutual

theorem Stmt.WellScoped.of_outer {innermost : List String} {outer outer' : Blocks} :
    ∀ {s : Stmt}, s.WellScoped (innermost :: outer) → s.WellScoped (innermost :: outer')
  | .expr _ _, _ | .print _ _ _, _ => trivial
  | .decl _ _ _ _, hscoped => hscoped
  | .block _ _, hscoped => Stmt.WellScopedAll.of_outer hscoped

theorem Stmt.WellScopedAll.of_outer {innermost : List String} {outer outer' : Blocks} :
    ∀ {body : List Stmt}, Stmt.WellScopedAll (innermost :: outer) body →
      Stmt.WellScopedAll (innermost :: outer') body
  | [], _ => trivial
  | s :: rest, hscoped => by
      obtain ⟨names, hafter⟩ := Blocks.exists_after_eq innermost s
      have hrest := hscoped.2
      rw [hafter] at hrest
      refine ⟨Stmt.WellScoped.of_outer hscoped.1, ?_⟩
      rw [hafter]
      exact Stmt.WellScopedAll.of_outer hrest

end

/-- A statement that declares no global keeps the scoping rules in any block. -/
theorem Stmt.WellScoped.enclose {s : Stmt} (hdecl : s.isDecl = false) (hscoped : s.WellScoped [])
    (names : List String) : s.WellScoped [names] := by
  cases s with
  | expr | print => trivial
  | decl => contradiction
  | block => exact Stmt.WellScopedAll.of_outer hscoped

/-- Outside all blocks only a declaration leaves a variable. -/
theorem Stmt.locals_eq_nil_of_eval {s : Stmt} {env env' : Env} (hdecl : s.isDecl = false)
    (hlocals : env.locals = []) (heval : s.eval env = .ok () env') : env'.locals = [] := by
  cases s with
  | expr value stop =>
      rw [Stmt.eval] at heval
      obtain ⟨v, env₁, hvalue, hpure⟩ := Eval.bind_eq_ok heval
      obtain ⟨_, rfl⟩ := EStateM.Result.ok.inj hpure
      exact (value.sameNames_of_eval hvalue).1.locals_eq_nil hlocals
  | print argument opening stop =>
      rw [Stmt.eval] at heval
      obtain ⟨v, env₁, hvalue, hprint⟩ := Eval.bind_eq_ok heval
      obtain ⟨_, rfl⟩ := EStateM.Result.ok.inj hprint
      exact (Expr.sameNames_of_evalOrNil hvalue).1.locals_eq_nil hlocals
  | decl => contradiction
  | block body close =>
      rw [Stmt.eval_block_eq, hlocals] at heval
      obtain ⟨_, env₁, _, hclose⟩ := Eval.bind_eq_ok heval
      obtain ⟨_, rfl⟩ := EStateM.Result.ok.inj hclose
      exact List.drop_length

/-- Where there are no block variables, a statement that succeeds outside all blocks does the same
inside a block whose variables are the globals, and keeps the scoping rules of that block. -/
theorem Stmt.eval_enclose {s : Stmt} {env env' : Env} (hlocals : env.locals = [])
    (hnodup : env.globals.names.Nodup) (hscoped : s.WellScoped [])
    (heval : s.evalTop env = .ok () env') :
    s.eval env.enclose = .ok () env'.enclose ∧ env'.locals = [] ∧ env'.globals.names.Nodup ∧
      s.WellScoped [env.globals.names] ∧
      Blocks.after [env.globals.names] s = [env'.globals.names] := by
  cases s with
  | expr | print | block =>
      obtain ⟨heval', hnames⟩ := Stmt.encloses_eval _ heval hnodup
      exact ⟨heval', Stmt.locals_eq_nil_of_eval rfl hlocals heval, hnames ▸ hnodup,
        hscoped.enclose rfl _, by rw [hnames]; rfl⟩
  | decl name pos initial stop =>
      obtain ⟨value, env₁, hvalue, hdeclare⟩ := Eval.bind_eq_ok heval
      obtain ⟨hsame, hbinds⟩ := Expr.sameNames_of_evalOrNil hvalue
      obtain ⟨hvalue', hnames⟩ := Expr.encloses_evalOrNil initial hvalue hnodup
      have hempty := hsame.locals_eq_nil hlocals
      -- The name was free when the value was known, so nothing before could use it.
      unfold Env.declareGlobal at hdeclare
      split at hdeclare
      next => cases hdeclare
      next hget =>
        obtain ⟨_, rfl⟩ := EStateM.Result.ok.inj hdeclare
        have hfresh : name ∉ env.globals.names := hnames ▸ Globals.get?_eq_none_iff.mp hget
        have hself : name ∉ Expr.namesOptional initial := by
          intro hname
          rcases hbinds name hname with hlocal | hglobal
          · rw [hlocals] at hlocal
            contradiction
          · exact hfresh hglobal
        refine ⟨?_, hempty, ?_, ⟨hfresh, hself⟩, ?_⟩
        · rw [Stmt.eval]
          simp only [Bind.bind, EStateM.bind, hvalue', Env.declareLocal]
          simp only [Env.enclose, hempty]
          rfl
        · rw [Globals.names_declare, hnames]
          exact List.nodup_cons.mpr ⟨hfresh, hnodup⟩
        · rw [Globals.names_declare, hnames]
          rfl

/-- A script that succeeds does the same inside a block, and keeps the scoping rules there. -/
theorem Stmt.evalAll_enclose {body : List Stmt} {env env' : Env} (hlocals : env.locals = [])
    (hnodup : env.globals.names.Nodup) (hscoped : Stmt.WellScopedAll [] body)
    (heval : body.forM Stmt.evalTop env = .ok () env') :
    Stmt.evalAll body env.enclose = .ok () env'.enclose ∧ env'.locals = [] ∧
      Stmt.WellScopedAll [env.globals.names] body := by
  induction body generalizing env with
  | nil =>
      obtain ⟨_, rfl⟩ := EStateM.Result.ok.inj heval
      exact ⟨rfl, hlocals, trivial⟩
  | cons s rest ih =>
      obtain ⟨_, env₁, hs, hrest⟩ := Eval.bind_eq_ok heval
      obtain ⟨hs', hlocals', hnodup', hscoped', hafter⟩ :=
        Stmt.eval_enclose hlocals hnodup hscoped.1 hs
      have hscopedRest := hscoped.2
      rw [Blocks.after_nil] at hscopedRest
      obtain ⟨hrest', hend, hscopedRest'⟩ := ih hlocals' hnodup' hscopedRest hrest
      refine ⟨?_, hend, hscoped', ?_⟩
      · rw [Stmt.evalAll]
        simp only [Bind.bind, EStateM.bind, hs', hrest']
      · rw [hafter]
        exact hscopedRest'

end Scriptlet
