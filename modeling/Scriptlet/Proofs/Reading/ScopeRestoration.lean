import Scriptlet.Proofs.Reading.StatementSoundness
import Scriptlet.Proofs.Reading.Termination

/-! # Scopes around statements

Reading a statement leaves the scope as it was, and a declaration adds at most one variable, with
and without errors in them. There is one exception. Where there is no room for a variable, the one
before it is made one of the innermost block in its place, and goes out of scope with that block.
An error has been reported then, and no more than this one variable is lost.
-/

namespace Scriptlet

namespace Scope

/-- What a scope is like between statements, even after errors. -/
structure Settled (scope : Scope) : Prop where
  /-- Slots are counted from the outermost variable. -/
  packed : ∀ outer, outer <:+ scope.locals → Packed outer
  /-- Every variable is usable and belongs to an open block. -/
  usable : ∀ l ∈ scope.locals, l.depth.any (· ≤ scope.depth) = true
  length_le : scope.locals.length ≤ capacity

/-! ## Settled scopes -/

/-- Of a packed list, more variables are packed if the first one is in its place. -/
theorem packed_suffixes_cons {l : Local} {locals : List Local} (hl : l.slot = locals.length)
    (hpacked : ∀ outer, outer <:+ locals → Packed outer) :
    ∀ outer, outer <:+ l :: locals → Packed outer := by
  intro outer houter
  rcases List.suffix_cons_iff.mp houter with rfl | houter
  · exact hl
  · exact hpacked outer houter

namespace Settled

variable {scope : Scope} (hscope : scope.Settled)

include hscope

theorem size_eq : scope.size = scope.locals.length := by
  have hpacked := hscope.packed scope.locals List.suffix_rfl
  unfold size
  cases hlocals : scope.locals with
  | nil => rfl
  | cons l outer =>
      rw [hlocals] at hpacked
      exact congrArg (· + 1) hpacked

theorem of_suffix {locals : List Local} (hsuffix : locals <:+ scope.locals) :
    Settled { scope with locals } where
  packed outer houter := hscope.packed outer (houter.trans hsuffix)
  usable l hl := hscope.usable l (hsuffix.subset hl)
  length_le := Nat.le_trans hsuffix.length_le hscope.length_le

theorem enter : scope.enter.Settled where
  packed := hscope.packed
  usable l hl := by
    obtain ⟨depth, hdepth, hle⟩ := (Option.any_eq_true _ _).mp (hscope.usable l hl)
    rw [hdepth]
    exact decide_eq_true (Nat.le_succ_of_le (of_decide_eq_true hle))
  length_le := hscope.length_le

/-- A variable of the innermost block, in its place. -/
theorem cons {l : Local} {outer : List Local} (hlocals : outer <:+ scope.locals)
    (hslot : l.slot = outer.length) (hdepth : l.depth = some scope.depth)
    (hroom : outer.length < capacity) : Settled { scope with locals := l :: outer } where
  packed := packed_suffixes_cons hslot (hscope.of_suffix hlocals).packed
  usable := by
    refine List.forall_mem_cons.mpr ⟨by simp [hdepth], (hscope.of_suffix hlocals).usable⟩
  length_le := hroom

theorem push_settle (name : String) :
    (scope.push name).settle =
      { scope with locals := ⟨name, scope.locals.length, some scope.depth⟩ :: scope.locals } := by
  simp only [push, settle, hscope.size_eq]

end Settled

/-- The scopes of well-scoped statements are settled. -/
theorem settled_ofBlocks {blocks : Blocks} (hroom : blocks.names.length ≤ capacity) :
    (ofBlocks blocks).Settled where
  packed := by
    show ∀ outer, outer <:+ localsOf blocks → Packed outer
    clear hroom
    induction blocks with
    | nil =>
        intro outer houter
        obtain rfl := List.suffix_nil.mp houter
        trivial
    | cons block blocks ih =>
        rw [localsOf]
        induction block with
        | nil => exact ih
        | cons name earlier ihblock => exact packed_suffixes_cons rfl ihblock
  usable l hl := by
    obtain ⟨depth, hdepth, hle⟩ := depth_of_mem_localsOf hl
    rw [hdepth]
    exact decide_eq_true hle
  length_le := by
    rw [← names_ofBlocks, names, List.length_map] at hroom
    exact hroom

/-- The variables of a block go out of scope with it. -/
theorem leave_append {scope : Scope} {depth : Nat} {inner outer : List Local}
    (hdepth : scope.depth = depth + 1) (hlocals : scope.locals = inner ++ outer)
    (hinner : ∀ l ∈ inner, l.depth = some scope.depth)
    (houter : ∀ l ∈ outer, l.depth.any (· ≤ depth) = true) : scope.leave = ⟨outer, depth⟩ := by
  have hdrop : (inner ++ outer).dropWhile (fun l => !l.depth.any (· ≤ depth)) = outer := by
    rw [List.dropWhile_append_of_pos]
    · cases outer with
      | nil => rfl
      | cons l outer => simp [houter l List.mem_cons_self]
    · intro l hl
      simp [hinner l hl, hdepth]
  simp only [leave, hdepth, hlocals, Nat.add_sub_cancel, hdrop]

/-- A variable that is settled again inside a block goes out of scope with the block. -/
theorem Settled.leave_settle_enter {scope : Scope} (hscope : scope.Settled) :
    scope.enter.settle.leave = { scope with locals := scope.locals.tail } := by
  have husable : ∀ l ∈ scope.locals.tail, l.depth.any (· ≤ scope.depth) = true :=
    fun l hl => hscope.usable l (List.mem_of_mem_tail hl)
  obtain ⟨locals, depth⟩ := scope
  cases locals with
  | nil => rfl
  | cons l outer =>
      exact @leave_append _ depth [{ l with depth := some (depth + 1) }] outer rfl rfl
        (List.forall_mem_singleton.mpr rfl) husable

end Scope

namespace Parser

/-! ## What reading does to the scope -/

/-- Nothing that concerns scopes has been done. -/
structure Quiet (p p' : Parser) : Prop where
  scope : p'.scope = p.scope
  explained : p.Explained → p'.Explained
  diagnostics : p.diagnostics ≠ [] → p'.diagnostics ≠ []

theorem quiet_stable (p : Parser) : Stable (Quiet p) where
  reportAt token error h :=
    ⟨(scope_stable _).reportAt token error h.scope,
      fun hp => explained_invariant.reportAt token error (h.explained hp),
      fun hp => diagnostics_ne_nil_invariant.reportAt token error (h.diagnostics hp)⟩
  advance h :=
    ⟨(scope_stable _).advance h.scope, fun hp => explained_invariant.advance (h.explained hp),
      fun hp => diagnostics_ne_nil_invariant.advance (h.diagnostics hp)⟩
  pool _ h := ⟨h.scope, h.explained, h.diagnostics⟩

theorem Quiet.refl (p : Parser) : Quiet p p := ⟨rfl, id, id⟩

/-- The end of a panic does not concern scopes either. -/
theorem Quiet.finish (recovery : Bool) (p : Parser) :
    Quiet p (if recovery && p.panicking then p.recover else p) := by
  split
  · refine (quiet_stable p).skipTo _ ⟨rfl, fun _ => ?_, id⟩
    exact fun hpanic => absurd hpanic Bool.false_ne_true
  · exact .refl p

/-- What is left of the variables in scope at `p`. The innermost one may be lost, but only if there
was no room for more, and not without an error. -/
def Leaves (p p' : Parser) (outer : List Local) : Prop :=
  outer = p.scope.locals ∨
    p.scope.locals.length = Scope.capacity ∧ outer = p.scope.locals.tail ∧
      (p.Explained → p'.diagnostics ≠ [])

theorem Leaves.suffix {p p' : Parser} {outer : List Local} (hleaves : Leaves p p' outer) :
    outer <:+ p.scope.locals := by
  rcases hleaves with rfl | ⟨_, rfl, _⟩
  · exact List.suffix_rfl
  · exact List.tail_suffix _

/-- What a statement does to the scope. -/
structure Restores (p p' : Parser) : Prop where
  depth : p'.scope.depth = p.scope.depth
  locals : Leaves p p' p'.scope.locals

/-- What a statement or a declaration does to the scope. -/
inductive ChangesScope (p p' : Parser) : Prop
  | restores (hrestores : Restores p p')
  | entered (name : String) (hroom : p.scope.locals.length < Scope.capacity)
      (hscope : p'.scope = (p.scope.push name).settle)
  /-- In place of a variable for which there is no room, the one before it is settled again. -/
  | moved (hfull : p.scope.locals.length = Scope.capacity) (hscope : p'.scope = p.scope.settle)
      (herror : p.Explained → p'.diagnostics ≠ [])

section Quiet

variable {p q p' q' : Parser}

theorem Quiet.restores (hquiet : Quiet p p') : Restores p p' :=
  ⟨congrArg Scope.depth hquiet.scope, .inl (congrArg Scope.locals hquiet.scope)⟩

theorem Restores.scope (hrestores : Restores p p') :
    p'.scope = p.scope ∨
      p.scope.locals.length = Scope.capacity ∧
        p'.scope = { p.scope with locals := p.scope.locals.tail } ∧
        (p.Explained → p'.diagnostics ≠ []) := by
  obtain ⟨hdepth, hlocals⟩ := hrestores
  have hscope : p'.scope = ⟨p'.scope.locals, p.scope.depth⟩ := hdepth ▸ rfl
  rcases hlocals with hkept | ⟨hfull, htail, herror⟩
  · rw [hkept] at hscope
    exact .inl hscope
  · rw [htail] at hscope
    exact .inr ⟨hfull, hscope, herror⟩

theorem Restores.of_quiet (hfront : Quiet p q) (hrestores : Restores q p') (hback : Quiet p' q') :
    Restores p q' := by
  obtain ⟨hdepth, hlocals⟩ := hrestores
  rw [Leaves, hfront.scope] at hlocals
  rw [hfront.scope] at hdepth
  constructor
  · rw [hback.scope, hdepth]
  · rw [Leaves, hback.scope]
    refine hlocals.imp_right fun ⟨hfull, htail, herror⟩ => ⟨hfull, htail, fun hp => ?_⟩
    exact hback.diagnostics (herror (hfront.explained hp))

theorem ChangesScope.of_quiet (hfront : Quiet p q) (hchanges : ChangesScope q p')
    (hback : Quiet p' q') : ChangesScope p q' := by
  cases hchanges with
  | restores hrestores => exact .restores (hrestores.of_quiet hfront hback)
  | entered name hroom hscope =>
      rw [hfront.scope] at hroom hscope
      exact .entered name hroom (hback.scope.trans hscope)
  | moved hfull hscope herror =>
      rw [hfront.scope] at hfull hscope
      exact .moved hfull (hback.scope.trans hscope)
        fun hp => hback.diagnostics (herror (hfront.explained hp))

end Quiet

/-! ## Declarations -/

section Declare

variable {p : Parser} (hsettled : p.scope.Settled)

include hsettled

/-- A variable is entered if there is room for it, and otherwise an error is reported. -/
theorem declareLocal_cases (name : String) :
    (p.scope.locals.length < Scope.capacity ∧
        (p.declareLocal name).scope = p.scope.push name) ∨
      (p.scope.locals.length = Scope.capacity ∧ (p.declareLocal name).scope = p.scope ∧
        (p.Explained → (p.declareLocal name).diagnostics ≠ [])) := by
  have hexplained := explained_invariant.toLasting.declareLocal (p := p) name
  revert hexplained
  unfold declareLocal
  dsimp only
  have hquiet :
      Quiet p (if p.scope.declares name then p.report (.alreadyDeclared name) else p) := by
    split
    · exact (quiet_stable p).report _ (.refl p)
    · exact .refl p
  revert hquiet
  generalize (if p.scope.declares name then p.report (.alreadyDeclared name) else p) = q
  intro hquiet hexplained
  rw [hquiet.scope, hsettled.size_eq] at hexplained ⊢
  split
  next hroom => exact .inl ⟨hroom, rfl⟩
  next hroom =>
    rw [if_neg hroom] at hexplained
    have hfull := Nat.le_antisymm hsettled.length_le (Nat.le_of_not_lt hroom)
    refine .inr ⟨hfull, (scope_stable _).report _ hquiet.scope, fun hp => ?_⟩
    exact hexplained hp (panicking_reportAt _ _ _)

/-- The rest of a declaration after its name, with which the innermost variable is settled. -/
theorem settle_changes (levels : Nat) (name what : String) :
    ChangesScope p
      (let q := ((p.declareLocal name).initializer levels).2.expect .semicolon what
      { q with scope := q.scope.settle }) := by
  dsimp only
  have hstable := quiet_stable (p.declareLocal name)
  have hquiet := hstable.expect .semicolon what (hstable.initializer levels (.refl _))
  revert hquiet
  generalize ((p.declareLocal name).initializer levels).2.expect .semicolon what = q
  intro hquiet
  rcases declareLocal_cases hsettled name with ⟨hroom, hscope⟩ | ⟨hfull, hscope, herror⟩
  · exact .entered name hroom (congrArg Scope.settle (hquiet.scope.trans hscope))
  · exact .moved hfull (congrArg Scope.settle (hquiet.scope.trans hscope))
      fun hp => hquiet.diagnostics (herror hp)

theorem declare_changes (levels : Nat) : ChangesScope p (p.declare levels).2 := by
  unfold declare
  split
  · have hname := (quiet_stable p).advance (.refl p)
    dsimp only
    by_cases hglobal : p.advance.scope.depth = 0
    · simp only [if_pos hglobal]
      have hstable := quiet_stable p
      have hquiet := hstable.expect .semicolon "';' after variable declaration"
        (hstable.initializer levels (hstable.intern (.str p.advance.previous.lexeme) hname))
      exact .restores hquiet.restores
    · simp only [if_neg hglobal]
      have hlocal : p.advance.scope.Settled := hname.scope ▸ hsettled
      exact (settle_changes hlocal levels _ _).of_quiet hname (.refl _)
  · exact .restores ((quiet_stable p).reportNext _ (.refl p)).restores

end Declare

/-! ## Blocks -/

/-- Inside a block that was opened at `p`: its own variables come first, and then those around
it. -/
structure Inside (p p' : Parser) : Prop where
  depth : p'.scope.depth = p.scope.depth + 1
  settled : p'.scope.Settled
  explained : p.Explained → p'.Explained
  locals : ∃ inner outer, p'.scope.locals = inner ++ outer ∧
    (∀ l ∈ inner, l.depth = some p'.scope.depth) ∧ Leaves p p' outer

/-- A block starts without variables of its own. -/
theorem inside_enter {p : Parser} (hsettled : p.scope.Settled) :
    Inside p { p with scope := p.scope.enter } where
  depth := rfl
  settled := hsettled.enter
  explained := id
  locals := ⟨[], p.scope.locals, rfl, by simp, .inl rfl⟩

/-- Next to the variables that are left, a declaration has one of the innermost block at most. -/
theorem ChangesScope.exists_own {p p' : Parser} (hsettled : p.scope.Settled)
    (hchanges : ChangesScope p p') :
    p'.scope.depth = p.scope.depth ∧ p'.scope.Settled ∧
      ∃ own outer, p'.scope.locals = own ++ outer ∧
        (∀ l ∈ own, l.depth = some p.scope.depth) ∧ Leaves p p' outer := by
  cases hchanges with
  | restores hrestores =>
      obtain ⟨hdepth, hlocals⟩ := hrestores
      have hafter := hsettled.of_suffix hlocals.suffix
      rw [← hdepth] at hafter
      exact ⟨hdepth, hafter, [], _, rfl, by simp, hlocals⟩
  | entered name hroom hscope =>
      rw [hsettled.push_settle] at hscope
      rw [hscope]
      refine ⟨rfl, hsettled.cons List.suffix_rfl rfl rfl hroom, [_], _, rfl, ?_, .inl rfl⟩
      simp
  | moved hfull hscope herror =>
      obtain ⟨l, outer, hlocals⟩ : ∃ l outer, p.scope.locals = l :: outer :=
        List.exists_cons_of_length_pos (hfull ▸ by decide)
      have hslot : l.slot = outer.length := hsettled.packed (l :: outer) (hlocals ▸ List.suffix_rfl)
      have hroom : outer.length < Scope.capacity := by
        rw [← hfull, hlocals]
        exact Nat.lt_succ_self _
      rw [Scope.settle, hlocals] at hscope
      rw [hscope]
      refine ⟨rfl, hsettled.cons (hlocals ▸ List.suffix_cons l outer) hslot rfl hroom,
        [_], outer, rfl, by simp, .inr ⟨hfull, by rw [hlocals]; rfl, herror⟩⟩

/-- What a statement of a block loses is one of the variables of the block, or else the innermost
one around it. That one is lost only once: there is room afterwards. -/
theorem Leaves.split {p p₁ p₂ : Parser} {inner outer left : List Local}
    (hlocals : p₁.scope.locals = inner ++ outer) (houter : Leaves p p₁ outer)
    (hleft : Leaves p₁ p₂ left) (hexplained : p.Explained → p₁.Explained)
    (hdiagnostics : p₁.diagnostics ≠ [] → p₂.diagnostics ≠ []) :
    ∃ inner' outer', left = inner' ++ outer' ∧ (∀ l ∈ inner', l ∈ inner) ∧ Leaves p p₂ outer' := by
  have hstill : Leaves p p₂ outer :=
    houter.imp_right fun ⟨hfull, htail, herror⟩ =>
      ⟨hfull, htail, fun hp => hdiagnostics (herror hp)⟩
  rcases hleft with hkept | ⟨hfull, htail, herror⟩
  · exact ⟨inner, outer, hkept.trans hlocals, fun _ => id, hstill⟩
  · rw [hlocals] at hfull htail
    cases inner with
    | cons l inner => exact ⟨inner, outer, htail, fun _ => List.mem_cons_of_mem l, hstill⟩
    | nil =>
        -- The block has no variable of its own, so the one that is lost is around it.
        rw [List.nil_append] at hfull htail
        rcases houter with rfl | ⟨hbefore, rfl, _⟩
        · exact ⟨[], _, htail, fun _ => id, .inr ⟨hfull, rfl, fun hp => herror (hexplained hp)⟩⟩
        · -- One has been lost before, and so there is room.
          have hpos : 0 < Scope.capacity := by decide
          rw [List.length_tail] at hfull
          omega

theorem Inside.of_changes {p p₁ p₂ : Parser} (hinside : Inside p p₁)
    (hchanges : ChangesScope p₁ p₂) (hexplained : p₁.Explained → p₂.Explained)
    (hdiagnostics : p₁.diagnostics ≠ [] → p₂.diagnostics ≠ []) : Inside p p₂ := by
  obtain ⟨inner, outer, hlocals, hinner, houter⟩ := hinside.locals
  obtain ⟨hdepth, hsettled, own, left, hafter, hown, hleft⟩ :=
    hchanges.exists_own hinside.settled
  obtain ⟨inner', outer', rfl, hmem, houter'⟩ :=
    houter.split hlocals hleft hinside.explained hdiagnostics
  refine ⟨hdepth.trans hinside.depth, hsettled, fun hp => hexplained (hinside.explained hp),
    own ++ inner', outer', by rw [hafter, List.append_assoc], fun l hl => ?_, houter'⟩
  rw [hdepth]
  rcases List.mem_append.mp hl with hl | hl
  · exact hown l hl
  · exact hinner l (hmem l hl)

theorem Inside.quiet {p p₁ p₂ : Parser} (hinside : Inside p p₁) (hquiet : Quiet p₁ p₂) :
    Inside p p₂ :=
  hinside.of_changes (.restores hquiet.restores) hquiet.explained hquiet.diagnostics

/-- With the block, its own variables go out of scope. -/
theorem Inside.leave {p p' : Parser} (hsettled : p.scope.Settled) (hinside : Inside p p') :
    Restores p { p' with scope := p'.scope.leave } := by
  obtain ⟨inner, outer, hlocals, hinner, houter⟩ := hinside.locals
  have husable : ∀ l ∈ outer, l.depth.any (· ≤ p.scope.depth) = true :=
    (hsettled.of_suffix houter.suffix).usable
  have hleave := Scope.leave_append hinside.depth hlocals hinner husable
  constructor
  · show p'.scope.leave.depth = p.scope.depth
    rw [hleave]
  · show Leaves p _ p'.scope.leave.locals
    rw [hleave]
    exact houter

/-! ## Statements -/

/-- All statements that are read restore the scope. -/
def StmtReader.RestoresScope (read : StmtReader) : Prop :=
  ∀ p s p', p.scope.Settled → read p = .ok (s, p') → Restores p p'

section Declarations

variable {recovery : Bool} {levels : Nat}
  (hstatement : (statement recovery levels).RestoresScope)

include hstatement

theorem declaration_changes {p p' : Parser} {s : Stmt} (hsettled : p.scope.Settled)
    (hdeclaration : declaration recovery levels p = .ok (s, p')) : ChangesScope p p' := by
  obtain ⟨q, ⟨_, hdeclare⟩ | hstmt, rfl⟩ := declarationOr_cases hdeclaration
  · have hword := (quiet_stable p).advance (.refl p)
    have hchanges := declare_changes (hword.scope ▸ hsettled) levels
    rw [hdeclare] at hchanges
    exact hchanges.of_quiet hword (.finish recovery q)
  · have hrestores := hstatement p s q hsettled hstmt
    exact .restores (hrestores.of_quiet (.refl p) (.finish recovery q))

/-- From declaration to declaration a parser stays inside the block. -/
theorem declaration_keeps_inside (p : Parser) :
    (declaration recovery levels).Keeps (Inside p) := by
  intro p₁ s p₂ hinside hdeclaration
  exact hinside.of_changes (declaration_changes hstatement hinside.settled hdeclaration)
    (fun h => explained_invariant.declaration recovery levels _ _ _ h hdeclaration)
    (fun h => diagnostics_ne_nil_invariant.declaration recovery levels _ _ _ h hdeclaration)

end Declarations

theorem statement_restores (recovery : Bool) (levels : Nat) :
    (statement recovery levels).RestoresScope := by
  induction levels with
  | zero =>
      intro p s p' hsettled hstatement
      rw [statement] at hstatement
      split at hstatement
      · cases hstatement
        have hstable := quiet_stable p
        exact (hstable.report _ (hstable.advance (.refl p))).restores
      · have hresult : (p.simple 0).2 = p' := congrArg Prod.snd (Except.ok.inj hstatement)
        exact hresult ▸ ((quiet_stable p).simple 0 (.refl p)).restores
  | succ levels ih =>
      intro p s p' hsettled hstatement
      rw [statement] at hstatement
      split at hstatement
      · obtain ⟨body, p₁, p₂, hbody, rfl, rfl, rfl⟩ := block_cases hstatement
        have hbrace := (quiet_stable p).advance (.refl p)
        have hopened : p.advance.scope.Settled := hbrace.scope ▸ hsettled
        have hkeeps := declaration_keeps_inside ih p.advance
        have hinside := hkeeps.statements _ (inside_enter hopened) hbody
        have hstop := (quiet_stable p₁).expect .rightBrace "'\x7d' after block" (.refl p₁)
        exact ((hinside.quiet hstop).leave hopened).of_quiet hbrace (.refl _)
      · have hresult : (p.simple (levels + 1)).2 = p' :=
          congrArg Prod.snd (Except.ok.inj hstatement)
        exact hresult ▸ ((quiet_stable p).simple _ (.refl p)).restores

/-! ## The variable that is lost -/

section Lost

variable {p : Parser} {word name stop close : Token} {rest : List Token}

theorem tokens_declareLocal (p : Parser) (name : String) :
    (p.declareLocal name).current = p.current ∧ (p.declareLocal name).rest = p.rest := by
  unfold declareLocal
  dsimp only
  split <;> split <;> simp [report]

/-- A declaration without an initial value, up to its semicolon. -/
theorem declare_valueless (levels : Nat) (hname : p.current.kind = .identifier)
    (hrest : p.rest = stop :: close :: rest) (hstop : stop.kind = .semicolon)
    (hclose : close.kind ≠ .error) (hdepth : p.scope.depth ≠ 0) :
    (p.declare levels).2.previous = stop ∧ (p.declare levels).2.current = close ∧
      (p.declare levels).2.scope = (p.advance.declareLocal p.current.lexeme).scope.settle := by
  have hadvance := advance_eq hrest (by simp [hstop])
  obtain ⟨hcurrent, hrest'⟩ := tokens_declareLocal p.advance p.current.lexeme
  have hequal : (p.advance.declareLocal p.current.lexeme).sees .equal = false := by
    rw [sees, hcurrent, hadvance]
    simp [hstop]
  have hsemicolon : (p.advance.declareLocal p.current.lexeme).sees .semicolon = true := by
    rw [sees, hcurrent, hadvance]
    simp [hstop]
  have hlocal : p.advance.scope.depth ≠ 0 := by
    rw [hadvance]
    exact hdepth
  have hsees : p.sees .identifier = true := by simp [sees, hname]
  have hafter := advance_eq (hrest'.trans (congrArg Parser.rest hadvance)) hclose
  simp only [declare, if_pos hsees, if_neg hlocal, previous_advance, initializer, hequal,
    Bool.false_eq_true, if_false, expect, if_pos hsemicolon, hafter]
  refine ⟨?_, trivial, trivial⟩
  rw [hcurrent, hadvance]

/-- After a semicolon no tokens are skipped. -/
theorem current_finish (recovery : Bool) (hstop : p.previous.kind = .semicolon) :
    (if recovery && p.panicking then p.recover else p).current = p.current := by
  split
  · rw [recover]
    cases p.rest with
    | nil => rfl
    | cons token rest => simp [skipTo, hstop]
  · rfl

/-- A declaration for which there is no room settles the innermost variable again. -/
theorem declaration_full (recovery : Bool) (levels : Nat) (hsettled : p.scope.Settled)
    (hfull : p.scope.locals.length = Scope.capacity) (hdepth : p.scope.depth ≠ 0)
    (hword : p.current.kind = .kwDecl) (hrest : p.rest = name :: stop :: close :: rest)
    (hname : name.kind = .identifier) (hstop : stop.kind = .semicolon)
    (hclose : close.kind = .rightBrace) :
    ∃ s p', declaration recovery levels p = .ok (s, p') ∧ p'.current = close ∧
      p'.scope = p.scope.settle := by
  have hadvance := advance_eq hrest (by simp [hname])
  have hscope : p.advance.scope = p.scope := (scope_stable _).advance rfl
  have hscope' : p.advance.advance.scope = p.scope := (scope_stable _).advance hscope
  have hkind : p.advance.current.kind = .identifier := by rw [hadvance, hname]
  obtain ⟨hprevious, hcurrent, hafter⟩ := declare_valueless levels hkind
    (congrArg Parser.rest hadvance) hstop (by simp [hclose]) (hscope ▸ hdepth)
  have hlocal : (p.advance.advance.declareLocal p.advance.current.lexeme).scope = p.scope := by
    rcases declareLocal_cases (hscope' ▸ hsettled) p.advance.current.lexeme with
      ⟨hroom, _⟩ | ⟨_, hkept, _⟩
    · rw [hscope', hfull] at hroom
      exact absurd hroom (Nat.lt_irrefl _)
    · exact hkept.trans hscope'
  rw [hlocal] at hafter
  have hfinish := (Quiet.finish recovery (p.advance.declare levels).2).scope
  have hstays := current_finish recovery (hprevious ▸ hstop)
  refine ⟨(p.advance.declare levels).1, _, ?_, hstays.trans hcurrent, hfinish.trans hafter⟩
  rw [declaration, declarationOr_eq, if_pos (by simp [sees, hword])]
  rfl

/-- A block that declares a variable for which there is no room takes the innermost one around it
along. -/
theorem statement_drops (recovery : Bool) (levels : Nat) (hsettled : p.scope.Settled)
    (hfull : p.scope.locals.length = Scope.capacity) (hbrace : p.current.kind = .leftBrace)
    (hrest : p.rest = word :: name :: stop :: close :: rest) (hword : word.kind = .kwDecl)
    (hname : name.kind = .identifier) (hstop : stop.kind = .semicolon)
    (hclose : close.kind = .rightBrace) :
    ∃ s p', statement recovery (levels + 1) p = .ok (s, p') ∧
      p'.scope = { p.scope with locals := p.scope.locals.tail } := by
  have hopened : p.opened =
      { p with previous := p.current, current := word, rest := name :: stop :: close :: rest,
               scope := p.scope.enter } := by
    rw [opened, advance_eq hrest (by simp [hword])]
  obtain ⟨s, p₁, hdeclaration, hcurrent, hscope⟩ :=
    @declaration_full p.opened name stop close rest recovery levels (hopened ▸ hsettled.enter)
      (hopened ▸ hfull) (hopened ▸ Nat.succ_ne_zero _) (hopened ▸ hword) (by rw [hopened]) hname
      hstop hclose
  have hbody : statements (declaration recovery levels) closesBlock p.opened.rest #[] p.opened =
      .ok (#[s], p₁) := by
    have hgoes : closesBlock p.opened.current.kind = false := by simp [hopened, closesBlock, hword]
    have hstops : closesBlock p₁.current.kind = true := by simp [closesBlock, hcurrent, hclose]
    have hrounds : p.opened.rest = name :: stop :: close :: rest := by rw [hopened]
    rw [hrounds, statements_go _ _ _ hgoes hdeclaration, statements_stop _ _ _ hstops]
    rfl
  rw [statement_of_brace recovery levels (by simp [sees, hbrace]), hbody]
  refine ⟨_, _, rfl, ?_⟩
  have hafter := ((quiet_stable p₁).expect .rightBrace "'\x7d' after block" (.refl p₁)).scope
  rw [hscope, hopened] at hafter
  exact (congrArg Scope.leave hafter).trans hsettled.leave_settle_enter

end Lost

/-- Around a statement the scope is the same before and after, and a declaration adds at most one
variable of the innermost block, with and without errors in them. Only without room for more may the
innermost variable be lost or settled again, and not without an error; a block that declares a
variable then does lose it. -/
theorem scopes_restored (recovery : Bool) (levels : Nat) (p : Parser)
    (hsettled : p.scope.Settled) :
    (∀ s p', statement recovery levels p = .ok (s, p') →
        p'.scope = p.scope ∨
          p.scope.locals.length = Scope.capacity ∧
            p'.scope = { p.scope with locals := p.scope.locals.tail } ∧
            (p.Explained → p'.diagnostics ≠ [])) ∧
      (∀ s p', declaration recovery levels p = .ok (s, p') →
        p'.scope.Settled ∧
          (p'.scope = p.scope ∨
            (p.scope.locals.length < Scope.capacity ∧ ∃ name, p'.scope =
              { p.scope with
                locals := ⟨name, p.scope.locals.length, some p.scope.depth⟩ :: p.scope.locals }) ∨
            (p.scope.locals.length = Scope.capacity ∧
              (p'.scope = { p.scope with locals := p.scope.locals.tail } ∨
                p'.scope = p.scope.settle) ∧
              (p.Explained → p'.diagnostics ≠ [])))) ∧
      ∀ word name stop close rest, p.scope.locals.length = Scope.capacity →
        p.current.kind = .leftBrace → p.rest = word :: name :: stop :: close :: rest →
        word.kind = .kwDecl → name.kind = .identifier → stop.kind = .semicolon →
        close.kind = .rightBrace →
        ∃ s p', statement recovery (levels + 1) p = .ok (s, p') ∧
          p'.scope = { p.scope with locals := p.scope.locals.tail } := by
  refine ⟨fun s p' hstatement => ?_, fun s p' hdeclaration => ?_,
    fun word name stop close rest => statement_drops recovery levels hsettled⟩
  · exact (statement_restores recovery levels p s p' hsettled hstatement).scope
  · have hchanges := declaration_changes (statement_restores recovery levels) hsettled hdeclaration
    refine ⟨(hchanges.exists_own hsettled).2.1, ?_⟩
    cases hchanges with
    | restores hrestores =>
        refine hrestores.scope.imp_right fun ⟨hfull, htail, herror⟩ => .inr ?_
        exact ⟨hfull, .inl htail, herror⟩
    | entered name hroom hscope =>
        exact .inr (.inl ⟨hroom, name, hscope.trans (hsettled.push_settle name)⟩)
    | moved hfull hscope herror => exact .inr (.inr ⟨hfull, .inr hscope, herror⟩)

/-- In front of a block that declares a variable, with no room for one. -/
def crowded : Parser :=
  { start [⟨.kwDecl, "decl", ⟨1, 3⟩⟩, ⟨.identifier, "y", ⟨1, 8⟩⟩, ⟨.semicolon, ";", ⟨1, 9⟩⟩,
      ⟨.rightBrace, "\x7d", ⟨1, 11⟩⟩] with
    current := ⟨.leftBrace, "\x7b", ⟨1, 1⟩⟩
    scope := .ofBlocks [List.replicate Scope.capacity "x"] }

theorem scopes_restored_crowded : ∃ s p', statement true 1 crowded = .ok (s, p') ∧
    p'.scope.locals = crowded.scope.locals.tail ∧ crowded.scope.locals.length = 65536 := by
  have hnames : (Blocks.names [List.replicate Scope.capacity "x"]).length = Scope.capacity := by
    simp [Blocks.names]
  have hfull : crowded.scope.locals.length = Scope.capacity := by
    rw [← hnames, ← Scope.names_ofBlocks, Scope.names, List.length_map]
    rfl
  have hsettled : crowded.scope.Settled := Scope.settled_ofBlocks (Nat.le_of_eq hnames)
  obtain ⟨_, _, hlost⟩ := scopes_restored true 0 crowded hsettled
  obtain ⟨s, p', hstatement, hscope⟩ := hlost _ _ _ _ _ hfull rfl rfl rfl rfl rfl rfl
  exact ⟨s, p', hstatement, congrArg Scope.locals hscope, hfull⟩

end Parser

end Scriptlet
