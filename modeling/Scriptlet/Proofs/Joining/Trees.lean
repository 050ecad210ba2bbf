import Scriptlet.Meaning
import Scriptlet.Proofs.Acceptance
import Scriptlet.Proofs.Joining.Tokens
import Scriptlet.Proofs.Lowering.Basic

/-! # The trees of joined scripts

The tree of joined scripts has the statements of one script after the other, at other positions.
Positions matter for the places of faults alone: without them a tree keeps its limits, its
constants, its instructions and its meaning. And since a script starts outside all blocks, each of
these is composed of those of its parts.
-/

namespace Scriptlet

/-! ## Trees without positions -/

/-- The same expression, with nothing known about positions. -/
def Expr.bare : Expr → Expr
  | .literal value _ => .literal value .unknown
  | .var name _ => .var name .unknown
  | .assign name value => .assign name value.bare
  | .group inner _ => .group inner.bare .unknown
  | .unary op operand => .unary op operand.bare
  | .binary op left right => .binary op left.bare right.bare

mutual

/-- The same statement, with nothing known about positions. -/
def Stmt.bare : Stmt → Stmt
  | .expr value _ => .expr value.bare .unknown
  | .print argument _ _ => .print (argument.map Expr.bare) .unknown .unknown
  | .decl name _ initial _ => .decl name .unknown (initial.map Expr.bare) .unknown
  | .block body _ => .block (Stmt.bareAll body) .unknown

def Stmt.bareAll : List Stmt → List Stmt
  | [] => []
  | s :: rest => s.bare :: Stmt.bareAll rest

end

theorem Stmt.bareAll_append (first second : List Stmt) :
    Stmt.bareAll (first ++ second) = Stmt.bareAll first ++ Stmt.bareAll second := by
  induction first with
  | nil => rfl
  | cons s rest ih => rw [List.cons_append, Stmt.bareAll, Stmt.bareAll, ih, List.cons_append]

namespace Expr

@[simp] theorem nesting_bare (e : Expr) : e.bare.nesting = e.nesting := by
  induction e with
  | literal | var => rfl
  | assign | group | unary | binary => simp [bare, nesting, *]

@[simp] theorem names_bare (e : Expr) : e.bare.names = e.names := by
  induction e with
  | literal | var => rfl
  | assign | group | unary | binary => simp [bare, names, *]

@[simp] theorem constants_bare (locals : List String) (e : Expr) :
    e.bare.constants locals = e.constants locals := by
  induction e with
  | literal | var => rfl
  | assign | group | unary | binary => simp [bare, constants, *]

@[simp] theorem levels_map_bare (e : Option Expr) : levels (e.map bare) = levels e := by
  cases e <;> simp [levels]

@[simp] theorem namesOptional_map_bare (e : Option Expr) :
    namesOptional (e.map bare) = namesOptional e := by
  cases e <;> simp [namesOptional]

@[simp] theorem constantsOptional_map_bare (locals : List String) (e : Option Expr) :
    constantsOptional locals (e.map bare) = constantsOptional locals e := by
  cases e <;> simp [constantsOptional]

/-- Without positions an expression has the same instructions. -/
theorem map_fst_code_bare (pool : Pool) (frame : Frame) (e : Expr) {k k' : Code}
    (hk : k'.map Prod.fst = k.map Prod.fst) :
    (e.bare.code pool frame k').map Prod.fst = (e.code pool frame k).map Prod.fst := by
  induction e generalizing k k' with
  | literal | var => exact congrArg (_ :: ·) hk
  | assign name value ih | unary op value ih => exact ih (congrArg (_ :: ·) hk)
  | group inner close ih => exact ih hk
  | binary op left right ihl ihr =>
      refine ihl (ihr ?_)
      simp [hk]

theorem map_fst_codeOrNil_bare (pool : Pool) (frame : Frame) (pos pos' : Pos) (e : Option Expr)
    {k k' : Code} (hk : k'.map Prod.fst = k.map Prod.fst) :
    (codeOrNil pool frame pos' (e.map bare) k').map Prod.fst =
      (codeOrNil pool frame pos e k).map Prod.fst := by
  cases e with
  | none => exact congrArg (_ :: ·) hk
  | some e => exact e.map_fst_code_bare pool frame hk

end Expr

@[simp] theorem Blocks.after_bare (blocks : Blocks) (s : Stmt) :
    blocks.after s.bare = blocks.after s := by
  cases s <;> rfl

@[simp] theorem Frame.after_bare (frame : Frame) (s : Stmt) :
    frame.after s.bare = frame.after s := by
  cases s <;> rfl

mutual

@[simp] theorem Stmt.nesting_bare : ∀ s : Stmt, s.bare.nesting = s.nesting
  | .expr value stop => by simp [Stmt.bare, Stmt.nesting, Expr.levels]
  | .print argument opening stop => by simp [Stmt.bare, Stmt.nesting]
  | .decl name pos initial stop => by simp [Stmt.bare, Stmt.nesting]
  | .block body close => by rw [Stmt.bare, Stmt.nesting, Stmt.nesting, Stmt.nestingAll_bareAll body]

@[simp] theorem Stmt.nestingAll_bareAll :
    ∀ body : List Stmt, Stmt.nestingAll (Stmt.bareAll body) = Stmt.nestingAll body
  | [] => rfl
  | s :: rest => by
      rw [Stmt.bareAll, Stmt.nestingAll, Stmt.nestingAll, s.nesting_bare,
        Stmt.nestingAll_bareAll rest]

end

mutual

theorem Stmt.wellScoped_bare (blocks : Blocks) :
    ∀ s : Stmt, s.bare.WellScoped blocks ↔ s.WellScoped blocks
  | .expr value stop | .print argument opening stop => Iff.rfl
  | .decl name pos initial stop => by
      cases blocks <;> simp [Stmt.bare, Stmt.WellScoped]
  | .block body close => Stmt.wellScopedAll_bareAll ([] :: blocks) body

theorem Stmt.wellScopedAll_bareAll (blocks : Blocks) :
    ∀ body : List Stmt,
      Stmt.WellScopedAll blocks (Stmt.bareAll body) ↔ Stmt.WellScopedAll blocks body
  | [] => Iff.rfl
  | s :: rest => by
      rw [Stmt.bareAll, Stmt.WellScopedAll, Stmt.WellScopedAll, Blocks.after_bare,
        s.wellScoped_bare blocks, Stmt.wellScopedAll_bareAll _ rest]

end

mutual

theorem Stmt.peak_bare (blocks : Blocks) : ∀ s : Stmt, s.bare.peak blocks = s.peak blocks
  | .expr _ _ | .print _ _ _ | .decl _ _ _ _ => rfl
  | .block body _ => Stmt.peakAll_bareAll ([] :: blocks) body

theorem Stmt.peakAll_bareAll (blocks : Blocks) :
    ∀ body : List Stmt, Stmt.peakAll blocks (Stmt.bareAll body) = Stmt.peakAll blocks body
  | [] => rfl
  | s :: rest => by
      rw [Stmt.bareAll, Stmt.peakAll, Stmt.peakAll, Blocks.after_bare, s.peak_bare blocks,
        Stmt.peakAll_bareAll _ rest]

end

mutual

theorem Stmt.constants_bare (blocks : Blocks) :
    ∀ s : Stmt, s.bare.constants blocks = s.constants blocks
  | .expr value stop => value.constants_bare blocks.names
  | .print argument opening stop => Expr.constantsOptional_map_bare blocks.names argument
  | .decl name pos initial stop => by simp [Stmt.bare, Stmt.constants]
  | .block body close => Stmt.constantsAll_bareAll ([] :: blocks) body

theorem Stmt.constantsAll_bareAll (blocks : Blocks) :
    ∀ body : List Stmt,
      Stmt.constantsAll blocks (Stmt.bareAll body) = Stmt.constantsAll blocks body
  | [] => rfl
  | s :: rest => by
      rw [Stmt.bareAll, Stmt.constantsAll, Stmt.constantsAll, Blocks.after_bare,
        s.constants_bare blocks, Stmt.constantsAll_bareAll _ rest]

end

mutual

theorem Stmt.map_fst_code_bare (pool : Pool) (frame : Frame) :
    ∀ (s : Stmt) {k k' : Code}, k'.map Prod.fst = k.map Prod.fst →
      (s.bare.code pool frame k').map Prod.fst = (s.code pool frame k).map Prod.fst
  | .expr value _, _, _, hk => value.map_fst_code_bare pool frame (congrArg (_ :: ·) hk)
  | .print argument opening _, _, _, hk =>
      Expr.map_fst_codeOrNil_bare pool frame opening _ argument (congrArg (_ :: ·) hk)
  | .decl _ pos initial _, _, _, hk =>
      Expr.map_fst_codeOrNil_bare pool frame pos _ initial (congrArg (_ :: ·) hk)
  | .block body close, _, _, hk =>
      Stmt.map_fst_codeBody_bareAll pool frame.size close _ frame body hk

theorem Stmt.map_fst_codeBody_bareAll (pool : Pool) (outer : Nat) (close close' : Pos)
    (frame : Frame) :
    ∀ (body : List Stmt) {k k' : Code}, k'.map Prod.fst = k.map Prod.fst →
      (Stmt.codeBody pool outer close' frame (Stmt.bareAll body) k').map Prod.fst =
        (Stmt.codeBody pool outer close frame body k).map Prod.fst
  | [], _, _, hk => by simp [Stmt.bareAll, Stmt.codeBody, hk]
  | s :: rest, _, _, hk => by
      rw [Stmt.bareAll, Stmt.codeBody, Stmt.codeBody, Frame.after_bare]
      exact s.map_fst_code_bare pool frame
        (Stmt.map_fst_codeBody_bareAll pool outer close close' _ rest hk)

end

theorem Stmt.map_fst_topCode_bare (pool : Pool) (s : Stmt) {k k' : Code}
    (hk : k'.map Prod.fst = k.map Prod.fst) :
    (s.bare.topCode pool k').map Prod.fst = (s.topCode pool k).map Prod.fst := by
  cases s with
  | decl name pos initial stop =>
      exact Expr.map_fst_codeOrNil_bare pool .empty pos _ initial (by simp [hk])
  | expr | print | block => exact Stmt.map_fst_code_bare pool .empty _ hk

theorem Stmt.map_fst_foldr_topCode_bareAll (pool : Pool) (body : List Stmt) :
    ((Stmt.bareAll body).foldr (·.topCode pool) []).map Prod.fst =
      (body.foldr (·.topCode pool) []).map Prod.fst := by
  induction body with
  | nil => rfl
  | cons s rest ih =>
      rw [Stmt.bareAll]
      exact s.map_fst_topCode_bare pool ih

/-! ## Meaning without positions -/

@[simp] theorem Expr.eval_bare (e : Expr) : e.bare.eval = e.eval := by
  induction e with
  | literal | var => rfl
  | assign | group | unary | binary => simp [Expr.bare, Expr.eval, *]

@[simp] theorem Expr.evalOrNil_map_bare (e : Option Expr) :
    Expr.evalOrNil (e.map Expr.bare) = Expr.evalOrNil e := by
  cases e <;> simp [Expr.evalOrNil]

mutual

theorem Stmt.eval_bare : ∀ s : Stmt, s.bare.eval = s.eval
  | .expr value stop => by simp [Stmt.bare, Stmt.eval]
  | .print argument opening stop => by simp [Stmt.bare, Stmt.eval]
  | .decl name pos initial stop => by simp [Stmt.bare, Stmt.eval]
  | .block body close => by rw [Stmt.bare, Stmt.eval, Stmt.eval, Stmt.evalAll_bareAll body]

theorem Stmt.evalAll_bareAll :
    ∀ body : List Stmt, Stmt.evalAll (Stmt.bareAll body) = Stmt.evalAll body
  | [] => rfl
  | s :: rest => by
      rw [Stmt.bareAll, Stmt.evalAll, Stmt.evalAll, s.eval_bare, Stmt.evalAll_bareAll rest]

end

theorem Stmt.evalTop_bare (s : Stmt) : s.bare.evalTop = s.evalTop := by
  cases s with
  | decl name pos initial stop => simp [Stmt.bare, Stmt.evalTop]
  | expr | print | block => exact Stmt.eval_bare _

/-! ## Derivations -/

theorem Token.Alike.denotes {token other : Token} {value : Value} (halike : token.Alike other)
    (hvalue : token.Denotes value) : other.Denotes value := by
  cases hvalue with
  | number hkind hvalue =>
      rw [← halike.lexeme (by simp [hkind])] at hvalue
      exact .number (halike.kind.trans hkind) hvalue
  | string hkind htext =>
      rw [← halike.lexeme (by simp [hkind])] at htext
      exact .string (halike.kind.trans hkind) htext
  | true hkind => exact .true (halike.kind.trans hkind)
  | false hkind => exact .false (halike.kind.trans hkind)
  | nil hkind => exact .nil (halike.kind.trans hkind)

theorem exists_append_of_forall₂ {α β : Type} {R : α → β → Prop} {first second : List α}
    {all : List β} (hall : List.Forall₂ R (first ++ second) all) :
    ∃ first' second', all = first' ++ second' ∧ List.Forall₂ R first first' ∧
      List.Forall₂ R second second' := by
  induction first generalizing all with
  | nil => exact ⟨[], all, rfl, .nil, hall⟩
  | cons a first ih =>
      cases hall with
      | cons hhead htail =>
          obtain ⟨first', second', rfl, hfirst, hsecond⟩ := ih htail
          exact ⟨_ :: first', second', rfl, .cons hhead hfirst, hsecond⟩

/-- Alike tokens derive the same expression, apart from positions. -/
theorem Expr.Derives.exists_of_alike {level : Expr.Level} {tokens others : List Token} {e : Expr}
    (he : Derives level tokens e) (hothers : List.Forall₂ Token.Alike tokens others) :
    ∃ e', Derives level others e' ∧ e'.bare = e.bare := by
  induction he generalizing others with
  | stronger _ ih =>
      obtain ⟨e', he', hbare⟩ := ih hothers
      exact ⟨e', .stronger he', hbare⟩
  | assign hname hequal _ ih =>
      obtain _ | ⟨hname', _ | ⟨hequal', hvalue⟩⟩ := hothers
      obtain ⟨e', he', hbare⟩ := ih hvalue
      refine ⟨_, .assign (hname'.kind.trans hname) (hequal'.kind.trans hequal) he', ?_⟩
      rw [Expr.bare, Expr.bare, hbare, hname'.lexeme (by simp [hname])]
  | binary _ hsign _ ihl ihr =>
      obtain ⟨left, _, rfl, hleft, _ | ⟨hsign', hright⟩⟩ := exists_append_of_forall₂ hothers
      obtain ⟨l', hl', hbarel⟩ := ihl hleft
      obtain ⟨r', hr', hbarer⟩ := ihr hright
      refine ⟨_, .binary hl' (hsign'.kind ▸ hsign) hr', ?_⟩
      rw [Expr.bare, Expr.bare, hbarel, hbarer]
  | unary hsign _ ih =>
      obtain _ | ⟨hsign', hoperand⟩ := hothers
      obtain ⟨e', he', hbare⟩ := ih hoperand
      refine ⟨_, .unary (hsign'.kind ▸ hsign) he', ?_⟩
      rw [Expr.bare, Expr.bare, hbare]
  | group hopening _ hclose ih =>
      obtain ⟨_, _, rfl, _ | ⟨hopening', hinner⟩, _ | ⟨hclose', _ | _⟩⟩ :=
        exists_append_of_forall₂ hothers
      obtain ⟨e', he', hbare⟩ := ih hinner
      refine ⟨_, .group (hopening'.kind.trans hopening) he' (hclose'.kind.trans hclose), ?_⟩
      rw [Expr.bare, Expr.bare, hbare]
  | var hname =>
      obtain _ | ⟨hname', _ | _⟩ := hothers
      refine ⟨_, .var (hname'.kind.trans hname), ?_⟩
      rw [Expr.bare, Expr.bare, hname'.lexeme (by simp [hname])]
  | literal hvalue =>
      obtain _ | ⟨hvalue', _ | _⟩ := hothers
      exact ⟨_, .literal (hvalue'.denotes hvalue), rfl⟩

theorem Expr.DerivesOptional.exists_of_alike {tokens others : List Token} {e : Option Expr}
    (he : DerivesOptional tokens e) (hothers : List.Forall₂ Token.Alike tokens others) :
    ∃ e', DerivesOptional others e' ∧ e'.map Expr.bare = e.map Expr.bare := by
  cases e with
  | none =>
      obtain rfl : tokens = [] := he
      cases hothers
      exact ⟨none, rfl, rfl⟩
  | some e =>
      obtain ⟨e', he', hbare⟩ := Expr.Derives.exists_of_alike he hothers
      exact ⟨some e', he', congrArg some hbare⟩

theorem Expr.DerivesInitial.exists_of_alike {tokens others : List Token} {e : Option Expr}
    (he : DerivesInitial tokens e) (hothers : List.Forall₂ Token.Alike tokens others) :
    ∃ e', DerivesInitial others e' ∧ e'.map Expr.bare = e.map Expr.bare := by
  cases e with
  | none =>
      obtain rfl : tokens = [] := he
      cases hothers
      exact ⟨none, rfl, rfl⟩
  | some e =>
      obtain ⟨equal, value, rfl, hequal, he⟩ := he
      obtain _ | ⟨hequal', hvalue⟩ := hothers
      obtain ⟨e', he', hbare⟩ := he.exists_of_alike hvalue
      exact ⟨some e', ⟨_, _, rfl, hequal'.kind.trans hequal, he'⟩, congrArg some hbare⟩

/-- Alike tokens derive the same statements, apart from positions. -/
theorem Stmt.Derives.exists_of_alike {tokens others : List Token} {body : List Stmt}
    (hbody : Stmt.Derives tokens body) (hothers : List.Forall₂ Token.Alike tokens others) :
    ∃ body', Stmt.Derives others body' ∧ Stmt.bareAll body' = Stmt.bareAll body := by
  induction hbody generalizing others with
  | nil =>
      cases hothers
      exact ⟨[], .nil, rfl⟩
  | expr he hstop _ ih =>
      -- The semicolons may differ in their text, but no tree keeps it.
      obtain ⟨_, _, rfl, hvalue, _ | ⟨hstop', hrest⟩⟩ := exists_append_of_forall₂ hothers
      obtain ⟨e', he', hbare⟩ := he.exists_of_alike hvalue
      obtain ⟨body', hbody', hbares⟩ := ih hrest
      refine ⟨_, .expr he' (hstop'.kind.trans hstop) hbody', ?_⟩
      simp only [Stmt.bareAll, Stmt.bare, hbare, hbares]
  | print hword hopening hargument hclose hstop _ ih =>
      obtain ⟨_, _, rfl, _ | ⟨hword', _ | ⟨hopening', hvalue⟩⟩,
        _ | ⟨hclose', _ | ⟨hstop', hrest⟩⟩⟩ := exists_append_of_forall₂ hothers
      obtain ⟨e', he', hbare⟩ := hargument.exists_of_alike hvalue
      obtain ⟨body', hbody', hbares⟩ := ih hrest
      refine ⟨_, .print (hword'.kind.trans hword) (hopening'.kind.trans hopening) he'
        (hclose'.kind.trans hclose) (hstop'.kind.trans hstop) hbody', ?_⟩
      simp only [Stmt.bareAll, Stmt.bare, hbare, hbares]
  | decl hword hname hinitial hstop _ ih =>
      obtain ⟨_, _, rfl, _ | ⟨hword', _ | ⟨hname', hvalue⟩⟩, _ | ⟨hstop', hrest⟩⟩ :=
        exists_append_of_forall₂ hothers
      obtain ⟨e', he', hbare⟩ := hinitial.exists_of_alike hvalue
      obtain ⟨body', hbody', hbares⟩ := ih hrest
      refine ⟨_, .decl (hword'.kind.trans hword) (hname'.kind.trans hname) he'
        (hstop'.kind.trans hstop) hbody', ?_⟩
      simp only [Stmt.bareAll, Stmt.bare, hbare, hbares, hname'.lexeme (by simp [hname])]
  | block hopening _ hclose _ ihInner ih =>
      obtain ⟨_, _, rfl, _ | ⟨hopening', hinner⟩, _ | ⟨hclose', hrest⟩⟩ :=
        exists_append_of_forall₂ hothers
      obtain ⟨inner', hinner', hbare⟩ := ihInner hinner
      obtain ⟨body', hbody', hbares⟩ := ih hrest
      refine ⟨_, .block (hopening'.kind.trans hopening) hinner' (hclose'.kind.trans hclose) hbody',
        ?_⟩
      simp only [Stmt.bareAll, Stmt.bare, hbare, hbares]

/-! ## One sequence of statements after another -/

namespace Stmt

theorem nestingAll_append (first second : List Stmt) :
    nestingAll (first ++ second) = max (nestingAll first) (nestingAll second) := by
  induction first with
  | nil => simp [nestingAll]
  | cons s rest ih => rw [List.cons_append, nestingAll, nestingAll, ih, max_assoc]

theorem wellScopedAll_append (first second : List Stmt) :
    WellScopedAll [] (first ++ second) ↔ WellScopedAll [] first ∧ WellScopedAll [] second := by
  induction first with
  | nil => simp [WellScopedAll]
  | cons s rest ih =>
      rw [List.cons_append, WellScopedAll, WellScopedAll, Blocks.after_nil, ih, and_assoc]

theorem peakAll_append (first second : List Stmt) :
    peakAll [] (first ++ second) = max (peakAll [] first) (peakAll [] second) := by
  induction first with
  | nil => simp [peakAll, Blocks.names]
  | cons s rest ih => rw [List.cons_append, peakAll, peakAll, Blocks.after_nil, ih, max_assoc]

theorem constantsAll_append (first second : List Stmt) :
    constantsAll [] (first ++ second) = constantsAll [] first ++ constantsAll [] second := by
  induction first with
  | nil => rfl
  | cons s rest ih =>
      rw [List.cons_append, constantsAll, constantsAll, Blocks.after_nil, ih, List.append_assoc]

end Stmt

/-! ## Joined scripts -/

namespace Program

/-- The statements of scripts one after the other. -/
def join (programs : List Program) : Program :=
  ⟨programs.flatMap body, .unknown⟩

/-- The same script, with nothing known about positions. -/
def bare (program : Program) : Program :=
  ⟨Stmt.bareAll program.body, .unknown⟩

theorem Derives.exists_body_of_alike {tokens others : List Token} {program : Program}
    (hprogram : Derives tokens program)
    (hothers : List.Forall₂ Token.Alike tokens.dropLast others) :
    ∃ body, Stmt.Derives others body ∧ Stmt.bareAll body = Stmt.bareAll program.body := by
  obtain ⟨hbody, _⟩ := hprogram
  rw [List.dropLast_concat] at hothers
  exact hbody.exists_of_alike hothers

theorem exists_derives_flatten {sources : List String} {programs : List Program}
    {parts : List (List Token)}
    (hprograms : List.Forall₂ (fun source => Derives (Token.ofSource source).toList)
      sources programs)
    (hparts : List.Forall₂
      (fun source => List.Forall₂ Token.Alike (Token.ofSource source).toList.dropLast)
      sources parts) :
    ∃ body, Stmt.Derives parts.flatten body ∧
      Stmt.bareAll body = Stmt.bareAll (join programs).body := by
  induction hparts generalizing programs with
  | nil =>
      cases hprograms
      exact ⟨[], .nil, rfl⟩
  | cons hpart _ ih =>
      obtain _ | ⟨hprogram, hprograms⟩ := hprograms
      obtain ⟨body, hbody, hbare⟩ := hprogram.exists_body_of_alike hpart
      obtain ⟨others, hothers, hbares⟩ := ih hprograms
      refine ⟨body ++ others, hbody.append hothers, ?_⟩
      rw [Stmt.bareAll_append, hbare, hbares, ← Stmt.bareAll_append]
      rfl

/-- Scripts joined by line ends are read as their trees one after the other. -/
theorem exists_derives_intercalate {sources : List String} {programs : List Program}
    (hprograms : List.Forall₂ (fun source => Derives (Token.ofSource source).toList)
      sources programs) :
    ∃ program, Derives (Token.ofSource ("\n".intercalate sources)).toList program ∧
      program.bare = (join programs).bare := by
  obtain ⟨parts, stop, htokens, hstop, hparts⟩ :=
    (Token.scans_ofSource ("\n".intercalate sources)).exists_of_intercalate
  obtain ⟨body, hbody, hbare⟩ := exists_derives_flatten hprograms hparts
  rw [htokens]
  exact ⟨⟨body, stop.pos⟩, .intro hbody hstop, congrArg (Program.mk · .unknown) hbare⟩

/-! ## What a tree needs -/

theorem peak_bare (program : Program) : program.bare.peak = program.peak :=
  Stmt.peakAll_bareAll [] program.body

theorem admissible_bare {program : Program} : program.bare.Admissible ↔ program.Admissible := by
  have hnesting : program.bare.nesting = program.nesting := Stmt.nestingAll_bareAll program.body
  have hscoped : program.bare.WellScoped ↔ program.WellScoped :=
    Stmt.wellScopedAll_bareAll [] program.body
  have hpeak := program.peak_bare
  exact ⟨fun h => ⟨hnesting ▸ h.nesting, hscoped.mp h.wellScoped, hpeak ▸ h.peak⟩,
    fun h => ⟨hnesting ▸ h.nesting, hscoped.mpr h.wellScoped, hpeak ▸ h.peak⟩⟩

theorem constants_bare (program : Program) : program.bare.constants = program.constants :=
  Stmt.constantsAll_bareAll [] program.body

theorem instrs_bare (program : Program) (pool : Pool) :
    program.bare.instrs pool = program.instrs pool :=
  Stmt.map_fst_foldr_topCode_bareAll pool program.body

theorem eval_bare (program : Program) : program.bare.eval = program.eval := by
  obtain ⟨body, stop⟩ := program
  simp only [eval, bare]
  induction body with
  | nil => rfl
  | cons s rest ih =>
      rw [Stmt.bareAll]
      change (s.bare.evalTop >>= fun _ => (Stmt.bareAll rest).forM Stmt.evalTop) =
        (s.evalTop >>= fun _ => rest.forM Stmt.evalTop)
      rw [s.evalTop_bare, ih]

theorem admissible_join {programs : List Program}
    (hprograms : ∀ program ∈ programs, program.Admissible) : (join programs).Admissible := by
  induction programs with
  | nil => exact ⟨Nat.zero_le _, trivial, Nat.zero_le _⟩
  | cons program programs ih =>
      obtain ⟨hprogram, hprograms⟩ := List.forall_mem_cons.mp hprograms
      have hjoin := ih hprograms
      refine ⟨?_, ?_, ?_⟩
      · exact (Stmt.nestingAll_append _ _).trans_le (max_le hprogram.nesting hjoin.nesting)
      · exact (Stmt.wellScopedAll_append _ _).mpr ⟨hprogram.wellScoped, hjoin.wellScoped⟩
      · exact (Stmt.peakAll_append _ _).trans_le (max_le hprogram.peak hjoin.peak)

theorem constants_join_cons (program : Program) (programs : List Program) :
    (join (program :: programs)).constants = program.constants ++ (join programs).constants :=
  Stmt.constantsAll_append _ _

theorem instrs_join_cons (program : Program) (programs : List Program) (pool : Pool) :
    (join (program :: programs)).instrs pool =
      program.instrs pool ++ (join programs).instrs pool := by
  simp only [instrs, join, List.flatMap_cons, List.foldr_append]
  rw [Stmt.foldr_topCode_eq_append, List.map_append]

end Program

end Scriptlet
