import Mathlib.Order.Bounds.Defs
import Scriptlet.Proofs.Acceptance
import Scriptlet.Proofs.Lowering.Basic
import Scriptlet.Proofs.Reading.Termination

/-! # Block variables while a script is read

While a script that will be accepted is read, the scope between two statements is that of the blocks
that are open there. So the greatest number of block variables that the reader ever knows at once is
the one that the tree of the script has.
-/

namespace Scriptlet

/-! ## Counting block variables -/

mutual

/-- How many declarations a statement contains. -/
def Stmt.decls : Stmt → Nat
  | .expr _ _ | .print _ _ _ => 0
  | .decl _ _ _ _ => 1
  | .block body _ => Stmt.declsAll body

def Stmt.declsAll : List Stmt → Nat
  | [] => 0
  | s :: rest => s.decls + Stmt.declsAll rest

end

/-- How many declarations a script contains, in blocks and outside. -/
def Program.decls (program : Program) : Nat := Stmt.declsAll program.body

namespace Blocks

theorem length_names_declare_le (blocks : Blocks) (name : String) :
    blocks.names.length ≤ (blocks.declare name).names.length := by
  cases blocks with
  | nil => exact Nat.le_refl _
  | cons innermost outer => simp [declare, names]

theorem length_names_after_le (blocks : Blocks) (s : Stmt) :
    blocks.names.length ≤ (blocks.after s).names.length := by
  cases s with
  | decl name pos initial stop => exact blocks.length_names_declare_le name
  | expr | print | block => exact Nat.le_refl _

theorem length_names_le_peakAll (blocks : Blocks) (body : List Stmt) :
    blocks.names.length ≤ Stmt.peakAll blocks body := by
  induction body generalizing blocks with
  | nil => exact Nat.le_refl _
  | cons s rest ih =>
      calc blocks.names.length
        _ ≤ (blocks.after s).names.length := blocks.length_names_after_le s
        _ ≤ Stmt.peakAll (blocks.after s) rest := ih _
        _ ≤ Stmt.peakAll blocks (s :: rest) := Nat.le_max_right _ _

theorem length_names_after_le_decls (blocks : Blocks) (s : Stmt) :
    (blocks.after s).names.length ≤ blocks.names.length + s.decls := by
  cases s with
  | expr | print | block => exact Nat.le_add_right _ _
  | decl name pos initial stop =>
      cases blocks with
      | nil => exact Nat.zero_le _
      | cons innermost outer => simp [after, declare, names, Stmt.decls]

end Blocks

mutual

/-- No more variables are in scope at once than there were and are declared. -/
theorem Stmt.peak_le_decls (blocks : Blocks) :
    ∀ s : Stmt, s.peak blocks ≤ blocks.names.length + s.decls
  | .expr _ _ | .print _ _ _ => Nat.le_refl _
  | .decl name pos initial stop =>
      blocks.length_names_after_le_decls (.decl name pos initial stop)
  | .block body _ => Stmt.peakAll_le_decls ([] :: blocks) body

theorem Stmt.peakAll_le_decls (blocks : Blocks) :
    ∀ body : List Stmt, Stmt.peakAll blocks body ≤ blocks.names.length + Stmt.declsAll body
  | [] => Nat.le_refl _
  | s :: rest => by
      have hs := Stmt.peak_le_decls blocks s
      have hrest := Stmt.peakAll_le_decls (blocks.after s) rest
      have hafter := blocks.length_names_after_le_decls s
      rw [Stmt.peakAll, Stmt.declsAll]
      omega

end

/-- Without declarations in blocks there are no block variables. -/
theorem Program.peak_eq_zero {program : Program}
    (hblocks : ∀ s ∈ program.body, s.isDecl = false → s.decls = 0) : program.peak = 0 := by
  obtain ⟨body, stop⟩ := program
  rw [peak]
  induction body with
  | nil => rfl
  | cons s rest ih =>
      have hs : s.peak [] = 0 := by
        cases s with
        | expr | print | decl => rfl
        | block inner close =>
            have hpeak := Stmt.peak_le_decls [] (.block inner close)
            rw [hblocks _ List.mem_cons_self rfl] at hpeak
            exact Nat.le_zero.mp hpeak
      have hrest := ih fun other hother => hblocks other (List.mem_cons_of_mem s hother)
      rw [Stmt.peakAll, hs, Blocks.after_nil, hrest]
      rfl

theorem Scope.length_locals_ofBlocks (blocks : Blocks) :
    (ofBlocks blocks).locals.length = blocks.names.length := by
  rw [← names_ofBlocks, names, List.length_map]

namespace Parser

/-! ## States in which all is well -/

/-- What comes next are the statements `body`, up to a token that ends the loop over them, and
nothing in them will be reported. -/
structure Awaits (levels : Nat) (stops : TokenKind → Bool) (blocks : Blocks) (body : List Stmt)
    (p : Parser) : Prop where
  derives : ∃ tokens stop rest, Stmt.Derives tokens body ∧ p.upcoming = tokens ++ stop :: rest ∧
    stop.kind ≠ .error ∧ stops stop.kind = true
  goes : ∀ kind, OpensStmt kind → stops kind = false
  nesting : Stmt.nestingAll body ≤ levels
  wellScoped : Stmt.WellScopedAll blocks body
  peak : Stmt.peakAll blocks body ≤ Scope.capacity
  scope : p.scope = .ofBlocks blocks
  calm : p.panicking = false
  fits : ∃ pool, p.pool.addAll (Stmt.constantsAll blocks body) = some pool

/-- The first of the statements that the grammar derives is read by itself. -/
theorem exists_readsOne (recovery : Bool) {tokens : List Token} {s : Stmt} {body : List Stmt}
    (hbody : Stmt.Derives tokens (s :: body)) :
    ∃ first more rest, tokens = first :: more ++ rest ∧ OpensStmt first.kind ∧
      ReadsOne recovery (first :: more) s ∧ Stmt.Derives rest body := by
  cases hbody with
  | @expr tokens stop rest e _ he hstop hrest =>
      obtain ⟨first, others, rfl, hfirst⟩ := he.exists_head
      exact ⟨first, others ++ [stop], rest, by simp, .inl hfirst, readsOne_expr recovery he hstop,
        hrest⟩
  | @print word opening tokens close stop rest argument _ hword hopening hargument hclose hstop
      hrest =>
      exact ⟨word, opening :: tokens ++ [close, stop], rest, by simp, .inr (.inl hword),
        readsOne_print recovery hword hopening hargument hclose hstop, hrest⟩
  | @decl word name tokens stop rest initial _ hword hname hinitial hstop hrest =>
      exact ⟨word, name :: tokens ++ [stop], rest, by simp, .inr (.inr (.inl hword)),
        readsOne_decl recovery hword hname hinitial hstop, hrest⟩
  | @block opening tokens close rest inner _ hopening hinner hclose hrest =>
      exact ⟨opening, tokens ++ [close], rest, by simp, .inr (.inr (.inr hopening)),
        readsOne_block hopening (readable_of_stmt_derives hinner)
          (readsAll_of_derives recovery hinner) hclose, hrest⟩

namespace Awaits

variable {recovery : Bool} {levels : Nat} {stops : TokenKind → Bool} {blocks : Blocks} {s : Stmt}
  {body : List Stmt} {p : Parser}

theorem length_locals (hp : Awaits levels stops blocks body p) :
    p.scope.locals.length = blocks.names.length := by
  rw [hp.scope, Scope.length_locals_ofBlocks]

variable (recovery) in
/-- The next statement is read, and all is well after it. -/
theorem next (hp : Awaits levels stops blocks (s :: body) p) :
    stops p.current.kind = false ∧ ∃ p', declaration recovery levels p = .ok (s, p') ∧
      Awaits levels stops (blocks.after s) body p' := by
  obtain ⟨tokens, stop, rest, hderives, hupcoming, hstop, hends⟩ := hp.derives
  obtain ⟨first, more, others, rfl, hfirst, hone, hothers⟩ := exists_readsOne recovery hderives
  obtain ⟨hnestOne, hnestAll⟩ := Nat.max_le.mp hp.nesting
  obtain ⟨hpeakOne, hpeakAll⟩ := Nat.max_le.mp hp.peak
  obtain ⟨pool, hfits⟩ := hp.fits
  rw [Stmt.constantsAll, Pool.addAll_append, Option.bind_eq_some_iff] at hfits
  obtain ⟨middle, hfitsOne, hfitsAll⟩ := hfits
  rw [List.append_assoc] at hupcoming
  obtain ⟨p', hread, hreads⟩ := hone hnestOne hp.wellScoped.1 hpeakOne hp.scope hp.calm hfitsOne
    hupcoming (readable_of_stmt_derives hothers hstop rest)
  obtain ⟨hpool, hcalm, _⟩ := hreads.quiet middle hfitsOne
  refine ⟨?_, p', hread, ?_⟩
  · rw [(List.cons.inj hupcoming).1]
    exact hp.goes _ hfirst
  · exact {
      derives := ⟨others, stop, rest, hothers, hreads.upcoming_eq hupcoming, hstop, hends⟩
      goes := hp.goes
      nesting := hnestAll
      wellScoped := hp.wellScoped.2
      peak := hpeakAll
      scope := hreads.scope
      calm := hcalm.trans hp.calm
      fits := ⟨pool, hpool ▸ hfitsAll⟩ }

/-- In a block that comes next all is well. -/
theorem enter {inner : List Stmt} {close : Pos}
    (hp : Awaits levels stops blocks (.block inner close :: body) p) :
    p.sees .leftBrace = true ∧
      ∃ inside, levels = inside + 1 ∧ Awaits inside closesBlock ([] :: blocks) inner p.opened := by
  obtain ⟨tokens, stop, rest, hderives, hupcoming, _, _⟩ := hp.derives
  obtain ⟨pool, hfits⟩ := hp.fits
  rw [Stmt.constantsAll, Pool.addAll_append, Option.bind_eq_some_iff] at hfits
  obtain ⟨middle, hfits, _⟩ := hfits
  have hnesting := (Nat.max_le.mp hp.nesting).1
  obtain ⟨inside, rfl⟩ : ∃ inside, levels = inside + 1 :=
    Nat.exists_eq_add_of_le' (Nat.le_of_add_left_le hnesting)
  cases hderives with
  | @block opening tokens close others _ _ hopening hinner hclose hothers =>
      rw [List.append_assoc] at hupcoming
      have hbrace : close.kind ≠ .error := by simp [hclose]
      have htaken := reads_advance hupcoming (readable_of_stmt_derives hinner hbrace _)
      have hentered := htaken.trans (reads_scope p.advance (.ofBlocks ([] :: blocks)))
      have hopened : p.opened = { p.advance with scope := .ofBlocks ([] :: blocks) } := by
        rw [opened, htaken.scope, hp.scope, Scope.enter_ofBlocks]
      rw [← hopened] at hentered
      obtain ⟨hpool, hcalm, _⟩ := hentered.quiet p.pool rfl
      refine ⟨?_, inside, rfl, ?_⟩
      · rw [sees, (List.cons.inj hupcoming).1, hopening]
        rfl
      · exact {
          derives := ⟨tokens, close, _, hinner, hentered.upcoming_eq hupcoming, hbrace,
            by rw [hclose]; rfl⟩
          goes := fun _ => rightBrace_or_eof_of_opensStmt
          nesting := Nat.le_of_succ_le_succ hnesting
          wellScoped := hp.wellScoped.1
          peak := (Nat.max_le.mp hp.peak).1
          scope := hentered.scope
          calm := hcalm.trans hp.calm
          fits := ⟨middle, hpool ▸ hfits⟩ }

theorem exists_cons (hp : Awaits levels stops blocks body p)
    (hgoes : stops p.current.kind = false) : ∃ s rest, body = s :: rest := by
  cases body with
  | cons s rest => exact ⟨s, rest, rfl⟩
  | nil =>
      obtain ⟨tokens, stop, rest, ⟨⟩, hupcoming, _, hstop⟩ := hp.derives
      rw [(List.cons.inj hupcoming).1, hstop] at hgoes
      contradiction

/-- Only a block starts with a brace. -/
theorem exists_block (hp : Awaits levels stops blocks (s :: body) p)
    (hbrace : p.sees .leftBrace = true) : ∃ inner close, s = .block inner close := by
  have hcurrent : p.current.kind = .leftBrace := eq_of_beq hbrace
  obtain ⟨tokens, stop, rest, hderives, hupcoming, _, _⟩ := hp.derives
  cases hderives with
  | block => exact ⟨_, _, rfl⟩
  | expr he =>
      obtain ⟨first, others, rfl, hfirst⟩ := he.exists_head
      rw [← (List.cons.inj hupcoming).1, hcurrent] at hfirst
      contradiction
  | print hword | decl hword =>
      rw [← (List.cons.inj hupcoming).1, hcurrent] at hword
      contradiction

end Awaits

/-! ## The greatest number -/

variable {recovery : Bool} {tokens : List Token}

/-- Before its first statement all is well with a script that keeps the limits. -/
theorem awaits_start {program : Program} (hderives : Program.Derives tokens program)
    (hadmissible : program.Admissible) {pool : Pool}
    (hpool : Pool.empty.addAll program.constants = some pool) :
    Awaits maxNesting (· == .eof) [] program.body (start tokens).advance := by
  obtain ⟨hbody, hstop⟩ := hderives
  rename_i tokens stop body
  have hkind : stop.kind ≠ .error := by simp [hstop]
  have hstart : Reads (start (tokens ++ [stop])) [.placeholder] [] .top
      (start (tokens ++ [stop])).advance :=
    reads_advance rfl (readable_of_stmt_derives hbody hkind [])
  obtain ⟨hempty, hcalm, _⟩ := hstart.quiet .empty rfl
  exact {
    derives := ⟨tokens, stop, [], hbody, hstart.upcoming_eq rfl, hkind, by simp [hstop]⟩
    goes := fun _ => eq_eof_of_opensStmt
    nesting := hadmissible.nesting
    wellScoped := hadmissible.wellScoped
    peak := hadmissible.peak
    scope := hstart.scope
    calm := hcalm
    fits := ⟨pool, hempty ▸ hpool⟩ }

/-- Wherever reading comes to, all is well there, and no more variables are to come than in the
whole script. -/
theorem Visits.exists_awaits {first : List Stmt} (hstart : Awaits maxNesting (· == .eof) [] first
      (Parser.start tokens).advance) {levels : Nat} {stops : TokenKind → Bool} {p : Parser}
    (hvisits : Visits recovery tokens levels stops p) :
    ∃ blocks body, Awaits levels stops blocks body p ∧
      Stmt.peakAll blocks body ≤ Stmt.peakAll [] first := by
  induction hvisits with
  | start => exact ⟨[], first, hstart, Nat.le_refl _⟩
  | next _ hgoes hread ih =>
      obtain ⟨blocks, body, hp, hpeak⟩ := ih
      obtain ⟨s, rest, rfl⟩ := hp.exists_cons hgoes
      obtain ⟨_, p', hread', hp'⟩ := hp.next recovery
      obtain ⟨_, rfl⟩ := Prod.mk.inj (Except.ok.inj (hread.symm.trans hread'))
      exact ⟨_, rest, hp', (Nat.le_max_right _ _).trans hpeak⟩
  | enter _ hgoes hbrace ih =>
      obtain ⟨blocks, body, hp, hpeak⟩ := ih
      obtain ⟨s, rest, rfl⟩ := hp.exists_cons hgoes
      obtain ⟨inner, close, rfl⟩ := hp.exists_block hbrace
      obtain ⟨_, inside, hlevels, hp'⟩ := hp.enter
      obtain rfl := Nat.succ.inj hlevels
      exact ⟨_, inner, hp', (Nat.le_max_left _ _).trans hpeak⟩

mutual

/-- Reading comes to a state with as many variables as the next statement has in scope at once. -/
theorem Visits.exists_peak {levels : Nat} {stops : TokenKind → Bool} {blocks : Blocks}
    {p : Parser} : ∀ {s : Stmt} {body : List Stmt}, Visits recovery tokens levels stops p →
    Awaits levels stops blocks (s :: body) p →
    ∃ levels' stops' p', Visits recovery tokens levels' stops' p' ∧
      p'.scope.locals.length = s.peak blocks
  | .expr _ _, _, hvisits, hp | .print _ _ _, _, hvisits, hp =>
      ⟨levels, stops, p, hvisits, hp.length_locals⟩
  | .decl _ _ _ _, _, hvisits, hp => by
      obtain ⟨hgoes, p', hread, hp'⟩ := hp.next recovery
      exact ⟨levels, stops, p', hvisits.next hgoes hread, hp'.length_locals⟩
  | .block _ _, _, hvisits, hp => by
      have hgoes := (hp.next recovery).1
      obtain ⟨hbrace, inside, rfl, hopened⟩ := hp.enter
      exact Visits.exists_peakAll (hvisits.enter hgoes hbrace) hopened

theorem Visits.exists_peakAll {levels : Nat} {stops : TokenKind → Bool} {blocks : Blocks}
    {p : Parser} : ∀ {body : List Stmt}, Visits recovery tokens levels stops p →
    Awaits levels stops blocks body p →
    ∃ levels' stops' p', Visits recovery tokens levels' stops' p' ∧
      p'.scope.locals.length = Stmt.peakAll blocks body
  | [], hvisits, hp => ⟨levels, stops, p, hvisits, hp.length_locals⟩
  | s :: rest, hvisits, hp => by
      rcases Nat.le_total (s.peak blocks) (Stmt.peakAll (blocks.after s) rest) with hle | hle
      · rw [Stmt.peakAll, Nat.max_eq_right hle]
        obtain ⟨hgoes, p', hread, hp'⟩ := hp.next recovery
        exact Visits.exists_peakAll (hvisits.next hgoes hread) hp'
      · rw [Stmt.peakAll, Nat.max_eq_left hle]
        exact Visits.exists_peak hvisits hp

end

/-- The greatest number of block variables that are known at once while an accepted script is read
is that of its tree. -/
theorem isGreatest_peak (recovery : Bool) {program : Program}
    (hderives : Program.Derives tokens program) (hadmissible : program.Admissible) {pool : Pool}
    (hpool : Pool.empty.addAll program.constants = some pool) :
    IsGreatest {count | ∃ levels stops p, Visits recovery tokens levels stops p ∧
      p.scope.locals.length = count} program.peak := by
  have hstart := awaits_start hderives hadmissible hpool
  constructor
  · exact Visits.exists_peakAll .start hstart
  · rintro count ⟨levels, stops, p, hvisits, rfl⟩
    obtain ⟨blocks, body, hp, hpeak⟩ := hvisits.exists_awaits hstart
    rw [hp.length_locals]
    exact (blocks.length_names_le_peakAll body).trans hpeak

end Parser

end Scriptlet
