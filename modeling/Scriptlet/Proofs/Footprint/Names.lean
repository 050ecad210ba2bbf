import Mathlib.Data.Set.Basic
import Scriptlet.Proofs.Lowering.WellFormed

/-! # The names that code refers to

An instruction refers to a global by the index of a constant, and strings of the script are
constants as well. Still, every name that the code of a script refers to stands in the script as an
identifier: indices of names are looked up for names only.
-/

namespace Scriptlet

/-! ## Names in scripts -/

/-- The names that stand among tokens as identifiers. -/
def Token.identifiers (tokens : List Token) : Set String :=
  {name | ∃ token ∈ tokens, token.kind = .identifier ∧ token.lexeme = name}

theorem Token.identifiers_mono {tokens others : List Token} (hsub : tokens ⊆ others) :
    identifiers tokens ⊆ identifiers others := by
  rintro name ⟨token, htoken, hname⟩
  exact ⟨token, hsub htoken, hname⟩

mutual

/-- The names that occur in a statement. -/
def Stmt.names : Stmt → List String
  | .expr value _ => value.names
  | .print argument _ _ => Expr.namesOptional argument
  | .decl name _ initial _ => name :: Expr.namesOptional initial
  | .block body _ => Stmt.namesAll body

def Stmt.namesAll : List Stmt → List String
  | [] => []
  | s :: rest => s.names ++ Stmt.namesAll rest

end

section Derivations

variable {tokens : List Token}

theorem Expr.Derives.names_mem {level : Level} {e : Expr} (he : Derives level tokens e) :
    ∀ name ∈ e.names, name ∈ Token.identifiers tokens := by
  induction he with
  | stronger _ ih => exact ih
  | @assign name equal tokens e hname _ _ ih =>
      simp only [Expr.names, List.forall_mem_cons]
      refine ⟨⟨name, List.mem_cons_self, hname, rfl⟩, fun other hother => ?_⟩
      apply Token.identifiers_mono _ (ih other hother)
      exact List.subset_cons_of_subset _ (List.subset_cons_self _ _)
  | binary _ _ _ ihl ihr =>
      simp only [Expr.names, List.forall_mem_append]
      refine ⟨fun name hname => ?_, fun name hname => ?_⟩
      · exact Token.identifiers_mono (List.subset_append_left _ _) (ihl name hname)
      · apply Token.identifiers_mono _ (ihr name hname)
        exact List.subset_append_of_subset_right _ (List.subset_cons_self _ _)
  | unary _ _ ih =>
      intro name hname
      exact Token.identifiers_mono (List.subset_cons_self _ _) (ih name hname)
  | group _ _ _ ih =>
      intro name hname
      apply Token.identifiers_mono _ (ih name hname)
      exact List.subset_append_of_subset_left _ (List.subset_cons_self _ _)
  | @var name hname =>
      simp only [Expr.names, List.forall_mem_singleton]
      exact ⟨name, List.mem_singleton_self _, hname, rfl⟩
  | literal _ => simp [Expr.names]

theorem Expr.DerivesOptional.names_mem {e : Option Expr} (he : DerivesOptional tokens e) :
    ∀ name ∈ Expr.namesOptional e, name ∈ Token.identifiers tokens := by
  cases e with
  | none => simp [Expr.namesOptional]
  | some e => exact Expr.Derives.names_mem he

theorem Expr.DerivesInitial.names_mem {e : Option Expr} (he : DerivesInitial tokens e) :
    ∀ name ∈ Expr.namesOptional e, name ∈ Token.identifiers tokens := by
  cases e with
  | none => simp [Expr.namesOptional]
  | some e =>
      rcases he with ⟨equal, value, rfl, _, he⟩
      intro name hname
      exact Token.identifiers_mono (List.subset_cons_self _ _) (he.names_mem name hname)

theorem Stmt.Derives.names_mem {body : List Stmt} (hbody : Stmt.Derives tokens body) :
    ∀ name ∈ Stmt.namesAll body, name ∈ Token.identifiers tokens := by
  induction hbody with
  | nil => simp [Stmt.namesAll]
  | expr he _ _ ih =>
      simp only [Stmt.namesAll, Stmt.names, List.forall_mem_append]
      refine ⟨fun name hname => ?_, fun name hname => ?_⟩
      · exact Token.identifiers_mono (by simp) (he.names_mem name hname)
      · exact Token.identifiers_mono (by simp) (ih name hname)
  | print _ _ hargument _ _ _ ih =>
      simp only [Stmt.namesAll, Stmt.names, List.forall_mem_append]
      refine ⟨fun name hname => ?_, fun name hname => ?_⟩
      · exact Token.identifiers_mono (by grind) (hargument.names_mem name hname)
      · exact Token.identifiers_mono (by grind) (ih name hname)
  | @decl word name tokens stop rest initial body _ hname hinitial _ _ ih =>
      simp only [Stmt.namesAll, Stmt.names, List.cons_append, List.forall_mem_cons,
        List.forall_mem_append]
      refine ⟨⟨name, by simp, hname, rfl⟩, fun other hother => ?_, fun other hother => ?_⟩
      · exact Token.identifiers_mono (by grind) (hinitial.names_mem other hother)
      · exact Token.identifiers_mono (by grind) (ih other hother)
  | block _ _ _ _ ihInner ih =>
      simp only [Stmt.namesAll, Stmt.names, List.forall_mem_append]
      refine ⟨fun name hname => ?_, fun name hname => ?_⟩
      · exact Token.identifiers_mono (by grind) (ihInner name hname)
      · exact Token.identifiers_mono (by grind) (ih name hname)

end Derivations

/-! ## Names in code -/

/-- The global that an instruction refers to, if it does, has one of the names. -/
def Instr.NamedIn (pool : Pool) (names : Set String) (instr : Instr) : Prop :=
  ∀ index, instr.name? = some index → ∃ name ∈ names, pool.get? index = some (.str name)

/-- All instructions refer to globals of these names only. -/
def Code.NamedIn (pool : Pool) (names : Set String) (code : Code) : Prop :=
  ∀ entry ∈ code, entry.1.NamedIn pool names

section Trees

variable {pool : Pool} {names : Set String}

theorem Instr.namedIn_of_name?_eq_none {instr : Instr} (hname : instr.name? = none) :
    instr.NamedIn pool names := by
  intro index hindex
  rw [hname] at hindex
  contradiction

theorem Code.NamedIn.cons {instr : Instr} {pos : Pos} {k : Code} (hinstr : instr.NamedIn pool names)
    (hk : Code.NamedIn pool names k) : Code.NamedIn pool names ((instr, pos) :: k) :=
  List.forall_mem_cons.mpr ⟨hinstr, hk⟩

/-- In front of an instruction that refers to no global nothing changes. -/
theorem Code.NamedIn.cons_of_none {instr : Instr} {pos : Pos} {k : Code}
    (hk : Code.NamedIn pool names k) (hname : instr.name? = none) :
    Code.NamedIn pool names ((instr, pos) :: k) :=
  Code.NamedIn.cons (Instr.namedIn_of_name?_eq_none hname) hk

theorem Pool.name?_load (value : Value) : (pool.load value).name? = none := by
  cases value with
  | bool b => cases b <;> rfl
  | _ => rfl

theorem UnaryOp.name?_instr (op : UnaryOp) : op.instr.name? = none := by
  cases op <;> rfl

theorem BinaryOp.name?_of_mem_instrs {op : BinaryOp} {instr : Instr} (hinstr : instr ∈ op.instrs) :
    instr.name? = none := by
  cases op
  all_goals
    simp only [BinaryOp.instrs, List.mem_cons, List.not_mem_nil, or_false] at hinstr
    grind [Instr.name?]

/-- An index that was looked up for a name stands for that name. -/
theorem Pool.namedIn_index {name : String} (hheld : .ofValue (.str name) ∈ pool.held)
    (hname : name ∈ names) {instr : Instr} (hinstr : instr.name? = some (pool.index (.str name))) :
    instr.NamedIn pool names := by
  intro index hindex
  obtain rfl := Option.some.inj (hinstr.symm.trans hindex)
  exact ⟨name, hname, get?_index hheld⟩

/-- A variable is read and written by its slot, or else by its name. -/
theorem Pool.namedIn_read_write {locals : List String} {name : String}
    (hheld : pool.Holds (Blocks.pooledName locals name)) (hname : name ∈ names) :
    (pool.read (.ofNames locals) name).NamedIn pool names ∧
      (pool.write (.ofNames locals) name).NamedIn pool names := by
  unfold Pool.read Pool.write
  cases hslot : (Frame.ofNames locals).slot? name with
  | some slot =>
      exact ⟨Instr.namedIn_of_name?_eq_none rfl, Instr.namedIn_of_name?_eq_none rfl⟩
  | none =>
      have hmem := hheld.mem_of_not_mem (Frame.slot?_ofNames_eq_none_iff.mp hslot)
      exact ⟨namedIn_index hmem hname rfl, namedIn_index hmem hname rfl⟩

theorem Expr.namedIn_code {locals : List String} {e : Expr}
    (hheld : pool.Holds (e.constants locals)) (hnames : ∀ name ∈ e.names, name ∈ names) {k : Code}
    (hk : Code.NamedIn pool names k) :
    Code.NamedIn pool names (e.code pool (.ofNames locals) k) := by
  induction e generalizing k with
  | literal value pos => exact hk.cons_of_none (Pool.name?_load value)
  | var name pos =>
      have hmem : name ∈ names := hnames name (by simp [Expr.names])
      exact .cons (Pool.namedIn_read_write hheld hmem).1 hk
  | assign name value ih =>
      rcases Pool.holds_append.mp hheld with ⟨hname, hvalue⟩
      rcases List.forall_mem_cons.mp hnames with ⟨hmem, hothers⟩
      apply ih hvalue hothers
      exact .cons (Pool.namedIn_read_write hname hmem).2 hk
  | group inner close ih => exact ih hheld hnames hk
  | unary op operand ih =>
      apply ih hheld hnames
      exact hk.cons_of_none op.name?_instr
  | binary op left right ihl ihr =>
      rcases Pool.holds_append.mp hheld with ⟨hleft, hright⟩
      rcases List.forall_mem_append.mp hnames with ⟨hl, hr⟩
      apply ihl hleft hl
      apply ihr hright hr
      refine List.forall_mem_append.mpr ⟨?_, hk⟩
      rw [List.forall_mem_map]
      intro instr hinstr
      exact Instr.namedIn_of_name?_eq_none (BinaryOp.name?_of_mem_instrs hinstr)

theorem Expr.namedIn_codeOrNil {locals : List String} {e : Option Expr}
    (hheld : pool.Holds (Expr.constantsOptional locals e))
    (hnames : ∀ name ∈ Expr.namesOptional e, name ∈ names) (pos : Pos) {k : Code}
    (hk : Code.NamedIn pool names k) :
    Code.NamedIn pool names (Expr.codeOrNil pool (.ofNames locals) pos e k) := by
  cases e with
  | none => exact hk.cons_of_none rfl
  | some e => exact namedIn_code hheld hnames hk

mutual

theorem Stmt.namedIn_code {blocks : Blocks} : ∀ {s : Stmt}, (s.isDecl = true → blocks ≠ []) →
    pool.Holds (s.constants blocks) → s.WellScoped blocks → (∀ name ∈ s.names, name ∈ names) →
    ∀ {k : Code}, Code.NamedIn pool names k →
    Code.NamedIn pool names (s.code pool (.ofNames blocks.names) k)
  | .expr value stop, _, hheld, _, hnames, _, hk =>
      Expr.namedIn_code hheld hnames (hk.cons_of_none rfl)
  | .print argument opening stop, _, hheld, _, hnames, _, hk =>
      Expr.namedIn_codeOrNil hheld hnames opening (hk.cons_of_none rfl)
  | .decl name pos initial stop, hblock, hheld, hscoped, hnames, _, hk => by
      obtain ⟨innermost, outer, rfl⟩ := List.exists_cons_of_ne_nil (hblock rfl)
      rw [Stmt.constants_decl hscoped] at hheld
      exact Expr.namedIn_codeOrNil hheld (List.forall_mem_cons.mp hnames).2 pos
        (hk.cons_of_none rfl)
  | .block inner close, _, hheld, hscoped, hnames, _, hk => by
      rw [Stmt.code, Frame.size_ofNames]
      exact Stmt.namedIn_codeBody hheld hscoped hnames hk

theorem Stmt.namedIn_codeBody {innermost : List String} {outer : Blocks} {close : Pos} :
    ∀ {body : List Stmt}, pool.Holds (Stmt.constantsAll (innermost :: outer) body) →
    Stmt.WellScopedAll (innermost :: outer) body →
    (∀ name ∈ Stmt.namesAll body, name ∈ names) → ∀ {k : Code}, Code.NamedIn pool names k →
    Code.NamedIn pool names (Stmt.codeBody pool outer.names.length close
      (.ofNames (Blocks.names (innermost :: outer))) body k)
  | [], _, _, _, _, hk => by
      rw [Stmt.codeBody]
      refine List.forall_mem_append.mpr ⟨fun entry hentry => ?_, hk⟩
      rw [List.eq_of_mem_replicate hentry]
      exact Instr.namedIn_of_name?_eq_none rfl
  | s :: rest, hheld, hscoped, hnames, _, hk => by
      rcases Pool.holds_append.mp hheld with ⟨hs, hrest⟩
      rcases List.forall_mem_append.mp hnames with ⟨hfirst, hothers⟩
      obtain ⟨inner, hafter⟩ := Blocks.exists_after_cons innermost outer s
      have hscoped' := hscoped.2
      rw [hafter] at hrest hscoped'
      rw [Stmt.codeBody, Frame.after_ofNames, hafter]
      exact Stmt.namedIn_code (fun _ => List.cons_ne_nil _ _) hs hscoped.1 hfirst
        (Stmt.namedIn_codeBody hrest hscoped' hothers hk)

end

theorem Stmt.namedIn_topCode {s : Stmt} (hheld : pool.Holds (s.constants []))
    (hscoped : s.WellScoped []) (hnames : ∀ name ∈ s.names, name ∈ names) {k : Code}
    (hk : Code.NamedIn pool names k) : Code.NamedIn pool names (s.topCode pool k) := by
  cases s with
  | decl name pos initial stop =>
      rcases Pool.holds_append.mp hheld with ⟨hname, hinitial⟩
      rcases List.forall_mem_cons.mp hnames with ⟨hmem, hothers⟩
      apply Expr.namedIn_codeOrNil hinitial hothers
      exact .cons (Pool.namedIn_index (hname _ (by simp)) hmem rfl) (hk.cons_of_none rfl)
  | expr | print | block =>
      exact Stmt.namedIn_code (fun hdecl => absurd hdecl (by simp [Stmt.isDecl])) hheld hscoped
        hnames hk

theorem Stmt.namedIn_foldr_topCode {body : List Stmt}
    (hheld : pool.Holds (Stmt.constantsAll [] body)) (hscoped : Stmt.WellScopedAll [] body)
    (hnames : ∀ name ∈ Stmt.namesAll body, name ∈ names) {k : Code}
    (hk : Code.NamedIn pool names k) :
    Code.NamedIn pool names (body.foldr (·.topCode pool) k) := by
  induction body with
  | nil => exact hk
  | cons s rest ih =>
      rcases Pool.holds_append.mp hheld with ⟨hs, hrest⟩
      rcases List.forall_mem_append.mp hnames with ⟨hfirst, hothers⟩
      have hscoped' := hscoped.2
      rw [Blocks.after_nil] at hrest hscoped'
      exact Stmt.namedIn_topCode hs hscoped.1 hfirst (ih hrest hscoped' hothers)

end Trees

/-- The code of a script refers to globals by identifiers of the script only. -/
theorem namedIn_of_compile {recovery : Bool} {source : String} {chunk : Chunk}
    (hcompile : compile recovery source = .ok chunk) :
    ∀ instr ∈ chunk.code.toList,
      instr.NamedIn chunk.pool (Token.identifiers (Token.ofSource source).toList) := by
  obtain ⟨program, pool, hderives, hadmissible, hpool, rfl⟩ := compile_eq_ok_iff.mp hcompile
  have hnames : ∀ name ∈ Stmt.namesAll program.body,
      name ∈ Token.identifiers (Token.ofSource source).toList := by
    generalize (Token.ofSource source).toList = tokens at hderives
    rcases hderives with ⟨hbody, _⟩
    intro name hname
    exact Token.identifiers_mono (List.subset_append_left _ _) (hbody.names_mem name hname)
  have hcode := Stmt.namedIn_foldr_topCode (Pool.holds_of_addAll hpool) hadmissible.wellScoped
    hnames (k := [(.halt, program.stop)]) (by simp [Code.NamedIn, Instr.NamedIn, Instr.name?])
  intro instr hinstr
  simp only [Program.lower, Chunk.ofCode, List.mem_map] at hinstr
  rcases hinstr with ⟨entry, hentry, rfl⟩
  exact hcode entry hentry

end Scriptlet
