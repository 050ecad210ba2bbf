import Scriptlet.Compile
import Scriptlet.Proofs.Lexing
import Scriptlet.Proofs.Reading.StatementSoundness

/-! # Which scripts are compiled

A script has code exactly if its tokens derive from the grammar and its tree keeps the limits on
nesting, scopes, block variables and constants. The code is then that of the tree, over a pool that
holds the constants in the order in which the script needs them.
-/

namespace Scriptlet

/-- The limits that do not depend on constants. -/
structure Program.Admissible (program : Program) : Prop where
  nesting : program.nesting ≤ Parser.maxNesting
  wellScoped : program.WellScoped
  peak : program.peak ≤ Scope.capacity

/-- No token of statements is an `error` token. -/
theorem Stmt.Derives.kind_ne_error {tokens : List Token} {body : List Stmt}
    (hbody : Stmt.Derives tokens body) : ∀ token ∈ tokens, token.kind ≠ .error := by
  induction hbody with
  | nil => simp
  | expr he hstop _ ih =>
      simp only [List.forall_mem_append, List.forall_mem_cons]
      exact ⟨he.kind_ne_error, by simp [hstop], ih⟩
  | @print word opening tokens close stop rest argument body hword hopening hargument hclose hstop _
      ih =>
      have htokens : ∀ token ∈ tokens, token.kind ≠ .error := by
        cases argument with
        | none =>
            obtain rfl : tokens = [] := hargument
            simp
        | some e => exact Expr.Derives.kind_ne_error hargument
      simp only [List.cons_append, List.forall_mem_append, List.forall_mem_cons]
      exact ⟨by simp [hword], by simp [hopening], htokens, by simp [hclose], by simp [hstop], ih⟩
  | @decl word name tokens stop rest initial body hword hname hinitial hstop _ ih =>
      have htokens : ∀ token ∈ tokens, token.kind ≠ .error := by
        cases initial with
        | none =>
            obtain rfl : tokens = [] := hinitial
            simp
        | some e =>
            obtain ⟨equal, value, rfl, hequal, he⟩ := hinitial
            exact List.forall_mem_cons.mpr ⟨by simp [hequal], he.kind_ne_error⟩
      simp only [List.cons_append, List.forall_mem_append, List.forall_mem_cons]
      exact ⟨by simp [hword], by simp [hname], htokens, by simp [hstop], ih⟩
  | block hopening _ hclose _ ihInner ih =>
      simp only [List.cons_append, List.forall_mem_append, List.forall_mem_cons]
      exact ⟨by simp [hopening], ihInner, by simp [hclose], ih⟩

theorem Program.Derives.kind_ne_error {tokens : List Token} {program : Program}
    (hprogram : Program.Derives tokens program) : ∀ token ∈ tokens, token.kind ≠ .error := by
  obtain ⟨hbody, hstop⟩ := hprogram
  exact List.forall_mem_append.mpr ⟨hbody.kind_ne_error, by simp [hstop]⟩

/-- Nothing follows an `eof` token if none comes before the last token. -/
theorem Token.rest_eq_nil_of_eof {before tokens rest : List Token} {last stop : Token}
    (hbefore : ∀ token ∈ before, token.kind ≠ .eof)
    (hsplit : before ++ [last] = tokens ++ stop :: rest) (hstop : stop.kind = .eof) :
    rest = [] := by
  rcases List.eq_nil_or_concat rest with hnil | ⟨others, final, rfl⟩
  · exact hnil
  · have hdrop : before = tokens ++ stop :: others := by
      rw [List.concat_eq_append, ← List.cons_append, ← List.append_assoc] at hsplit
      have hinit := congrArg List.dropLast hsplit
      rwa [List.dropLast_concat, List.dropLast_concat] at hinit
    exact absurd hstop (hbefore stop (by simp [hdrop]))

namespace Parser

/-- A script that derives from the grammar within the limits is read as its tree. -/
theorem ofTokens_complete (recovery : Bool) {tokens : List Token} {program : Program}
    (hderives : Program.Derives tokens program) (hadmissible : program.Admissible) {pool : Pool}
    (hpool : Pool.empty.addAll program.constants = some pool) :
    ∃ p, Program.ofTokens recovery tokens = .ok (program, p) ∧ p.diagnostics = [] ∧
      p.pool = pool := by
  obtain ⟨hbody, hstop⟩ := hderives
  rename_i tokens stop body
  have hkind : stop.kind ≠ .error := by simp [hstop]
  have hstart : Reads (start (tokens ++ [stop])) [.placeholder] [] .top
      (start (tokens ++ [stop])).advance :=
    reads_advance rfl (readable_of_stmt_derives hbody hkind [])
  obtain ⟨hempty, hcalm, hclean⟩ := hstart.quiet .empty rfl
  have hupcoming : (start (tokens ++ [stop])).advance.upcoming = tokens ++ [stop] :=
    hstart.upcoming_eq rfl
  have hrounds : tokens.length ≤ (start (tokens ++ [stop])).advance.rest.length := by
    have hlength := congrArg List.length hupcoming
    simp [upcoming] at hlength
    omega
  obtain ⟨result, p, hall, hresult, hreads⟩ := readsAll_of_derives recovery hbody (· == .eof)
    (start (tokens ++ [stop])).advance.rest #[] hadmissible.nesting hadmissible.wellScoped
    hadmissible.peak hstart.scope hcalm (hempty ▸ hpool) hupcoming hkind
    (fun _ => eq_eof_of_opensStmt) (by simp [hstop]) hrounds
  obtain ⟨hpool', _, hdiagnostics⟩ := hreads.quiet pool (hempty ▸ hpool)
  have hcurrent : p.current = stop := (List.cons.inj (hreads.upcoming_eq hupcoming)).1
  refine ⟨p, ?_, hdiagnostics.trans hclean, hpool'⟩
  have hlist : result.toList = body := by simpa using hresult
  simp only [Program.ofTokens, hall, bind, Except.bind, hcurrent, hlist, pure, Except.pure]

/-- A script that leaves no diagnostics derives from the grammar within the limits. -/
theorem ofTokens_sound {recovery : Bool} {lexer : Lexer} {tokens : List Token}
    (hscans : lexer.Scans tokens) {program : Program} {p : Parser}
    (hread : Program.ofTokens recovery tokens = .ok (program, p))
    (hdiagnostics : p.diagnostics = []) :
    Program.Derives tokens program ∧ program.Admissible ∧
      Pool.empty.addAll program.constants = some p.pool := by
  obtain ⟨before, last, rfl, hlast, hbefore⟩ := hscans.exists_append
  obtain ⟨body, hbody, rfl⟩ := ofTokens_cases hread
  have hexplained : (start (before ++ [last])).advance.Explained :=
    explained_invariant.advance (by simp [Explained, start])
  -- A report is never taken back, so there was none when the first token had been fetched.
  have hclean : (start (before ++ [last])).advance.diagnostics = [] := by
    by_contra hreported
    exact (diagnostics_ne_nil_invariant.declaration recovery maxNesting).statements _ hreported
      hbody hdiagnostics
  have hstart : Reads (start (before ++ [last])) [.placeholder] [] .top
      (start (before ++ [last])).advance :=
    reads_advance rfl (readable_rest (by simp [start])
      (calm_of_diagnostics_eq_nil hexplained hclean))
  have hends : (start (before ++ [last])).EndsInEof := ⟨last,
    List.getLast?_concat (l := Token.placeholder :: before), hlast⟩
  have htop : (start (before ++ [last])).advance.scope = .ofBlocks [] := hstart.scope
  obtain ⟨tokens, inner, hresult, hinner, hstops⟩ := statements_sound
    (declaration_sound recovery maxNesting) _ htop (Nat.zero_le _) (hends.of_reads hstart)
    hexplained hbody hdiagnostics
  have heof : p.current.kind = .eof := eq_of_beq hstops
  have hsplit : before ++ [last] = tokens ++ p.current :: p.rest :=
    (hstart.upcoming_eq rfl).symm.trans hinner.upcoming
  rw [Token.rest_eq_nil_of_eof hbefore hsplit heof] at hsplit
  have hprogram : (⟨body.toList, p.current.pos⟩ : Program) = ⟨inner, p.current.pos⟩ := by
    rw [show body.toList = inner by simpa using hresult]
  have hempty := (hstart.fits (calm_of_diagnostics_eq_nil hexplained hclean)).2
  have hfits := (hinner.fits (calm_of_diagnostics_eq_nil ((explained_invariant.declaration
    recovery maxNesting).statements _ hexplained hbody) hdiagnostics)).2
  rw [hprogram, hsplit]
  refine ⟨.intro hinner.derives heof, ⟨hinner.nesting, hinner.wellScoped, hinner.peak⟩, ?_⟩
  rwa [← Option.some.inj hempty] at hfits

end Parser

theorem exists_of_isOk_compile {recovery : Bool} {source : String}
    (hok : (compile recovery source).isOk = true) :
    ∃ chunk, compile recovery source = .ok chunk := by
  cases hcompile : compile recovery source with
  | error rejection =>
      rw [hcompile] at hok
      contradiction
  | ok chunk => exact ⟨chunk, rfl⟩

/-- A script that is read without a diagnostic derives from the grammar as the tree that was
read. -/
theorem exists_derives_of_read (recovery : Bool) (source : String) (check : Program → Bool)
    (hread : (Program.ofTokens recovery (Token.ofSource source).toList).toOption.any
      (fun (program, p) => p.diagnostics.isEmpty && check program) = true) :
    ∃ program, Program.Derives (Token.ofSource source).toList program ∧ check program = true := by
  cases hresult : Program.ofTokens recovery (Token.ofSource source).toList with
  | error diagnostics =>
      rw [hresult] at hread
      contradiction
  | ok result =>
      rw [hresult] at hread
      obtain ⟨hempty, hcheck⟩ := Bool.and_eq_true_iff.mp hread
      have hsound := Parser.ofTokens_sound (Token.scans_ofSource source) hresult
        (List.isEmpty_iff.mp hempty)
      exact ⟨result.1, hsound.1, hcheck⟩

/-- A script has code exactly if its tree keeps the limits, and the code is that of the tree. -/
theorem compile_eq_ok_iff {recovery : Bool} {source : String} {chunk : Chunk} :
    compile recovery source = .ok chunk ↔
      ∃ program pool, Program.Derives (Token.ofSource source).toList program ∧
        program.Admissible ∧ Pool.empty.addAll program.constants = some pool ∧
        program.lower pool = chunk := by
  constructor
  · intro hcompile
    unfold compile at hcompile
    split at hcompile
    next => contradiction
    next program p hread =>
      split at hcompile
      next hempty =>
        have hdiagnostics : p.diagnostics = [] := List.isEmpty_iff.mp hempty
        obtain ⟨hderives, hadmissible, hpool⟩ :=
          Parser.ofTokens_sound (Token.scans_ofSource source) hread hdiagnostics
        exact ⟨program, p.pool, hderives, hadmissible, hpool, Except.ok.inj hcompile⟩
      next => contradiction
  · rintro ⟨program, pool, hderives, hadmissible, hpool, rfl⟩
    obtain ⟨p, hread, hdiagnostics, rfl⟩ :=
      Parser.ofTokens_complete recovery hderives hadmissible hpool
    simp only [compile, hread, hdiagnostics, List.isEmpty_nil, if_true]

/-- The compiler accepts exactly the language: a script has code if and only if it has no `error`
token and derives from the grammar as a tree with at most 256 levels open at once, that keeps the
scoping rules and needs at most 65536 block variables at once and 65536 distinct constants. -/
theorem exists_compile_eq_ok_iff (recovery : Bool) (source : String) :
    (∃ chunk, compile recovery source = .ok chunk) ↔
      (∀ token ∈ (Token.ofSource source).toList, token.kind ≠ .error) ∧
        ∃ program, Program.Derives (Token.ofSource source).toList program ∧
          program.nesting ≤ 256 ∧ program.WellScoped ∧ program.peak ≤ 65536 ∧
          program.constants.toFinset.card ≤ 65536 := by
  simp only [compile_eq_ok_iff]
  constructor
  · rintro ⟨_, program, pool, hderives, hadmissible, hpool, _⟩
    exact ⟨hderives.kind_ne_error, program, hderives, hadmissible.nesting, hadmissible.wellScoped,
      hadmissible.peak, Pool.exists_addAll_empty_iff.mp ⟨pool, hpool⟩⟩
  · rintro ⟨_, program, hderives, hnesting, hscoped, hpeak, hconstants⟩
    obtain ⟨pool, hpool⟩ := Pool.exists_addAll_empty_iff.mpr hconstants
    exact ⟨_, program, pool, hderives, ⟨hnesting, hscoped, hpeak⟩, hpool, rfl⟩

/-- Operators of every level in one expression, and a sum where the target of an assignment should
stand. -/
theorem exists_compile_eq_ok_iff_levels :
    (∃ chunk, compile true "a = b != c < d + e * -f" = .ok chunk) ∧
      ¬∃ program, Program.Derives (Token.ofSource "a + b = c").toList program ∧
        program.nesting ≤ 256 ∧ program.WellScoped ∧ program.peak ≤ 65536 ∧
        program.constants.toFinset.card ≤ 65536 := by
  constructor
  · have hname : ∀ {name : Token} {level : Expr.Level}, name.kind = .identifier →
        Expr.Derives level [name] (.var name.lexeme name.pos) :=
      fun {_ level} hname => .weaken (by cases level <;> decide) (.var hname)
    have htokens : (Token.ofSource "a = b != c < d + e * -f").toList =
        [⟨.identifier, "a", ⟨1, 1⟩⟩, ⟨.equal, "=", ⟨1, 3⟩⟩, ⟨.identifier, "b", ⟨1, 5⟩⟩] ++
          ⟨.bangEqual, "!=", ⟨1, 7⟩⟩ :: [⟨.identifier, "c", ⟨1, 10⟩⟩] ++
          ⟨.less, "<", ⟨1, 12⟩⟩ :: [⟨.identifier, "d", ⟨1, 14⟩⟩] ++
          ⟨.plus, "+", ⟨1, 16⟩⟩ :: [⟨.identifier, "e", ⟨1, 18⟩⟩] ++
          ⟨.star, "*", ⟨1, 20⟩⟩ :: [⟨.minus, "-", ⟨1, 22⟩⟩, ⟨.identifier, "f", ⟨1, 23⟩⟩] ++
          [⟨.semicolon, "", ⟨1, 24⟩⟩] ++ [⟨.eof, "", ⟨1, 24⟩⟩] := by decide +kernel
    have hfactor : Expr.Derives .factor ([⟨.identifier, "e", ⟨1, 18⟩⟩] ++ ⟨.star, "*", ⟨1, 20⟩⟩ ::
        [⟨.minus, "-", ⟨1, 22⟩⟩, ⟨.identifier, "f", ⟨1, 23⟩⟩])
        (.binary .multiply _ (.unary .negate _)) :=
      .binary (hname rfl) (by decide) (.unary (by decide) (hname rfl))
    have hterm : Expr.Derives .term ([⟨.identifier, "d", ⟨1, 14⟩⟩] ++ ⟨.plus, "+", ⟨1, 16⟩⟩ :: _)
        (.binary .add _ _) := .binary (hname rfl) (by decide) hfactor
    have hcomparison : Expr.Derives .comparison ([⟨.identifier, "c", ⟨1, 10⟩⟩] ++
        ⟨.less, "<", ⟨1, 12⟩⟩ :: _) (.binary .less _ _) := .binary (hname rfl) (by decide) hterm
    have hequality : Expr.Derives .equality ([⟨.identifier, "b", ⟨1, 5⟩⟩] ++
        ⟨.bangEqual, "!=", ⟨1, 7⟩⟩ :: _) (.binary .notEqual _ _) :=
      .binary (hname rfl) (by decide) hcomparison
    have hassign : Expr.Derives .assign (⟨.identifier, "a", ⟨1, 1⟩⟩ :: ⟨.equal, "=", ⟨1, 3⟩⟩ :: _)
        (.assign "a" _) := .assign rfl rfl (.stronger hequality)
    have hprogram : Program.Derives ((_ ++ [⟨.semicolon, "", ⟨1, 24⟩⟩]) ++ [⟨.eof, "", ⟨1, 24⟩⟩])
        ⟨_, ⟨1, 24⟩⟩ := .intro (.expr hassign rfl .nil) rfl
    rw [exists_compile_eq_ok_iff, htokens]
    exact ⟨by decide, _, hprogram, by decide, ⟨trivial, trivial⟩, by decide, by decide⟩
  · intro hprogram
    have hrejected : (compile true "a + b = c").isOk = false := by decide +kernel
    obtain ⟨chunk, hcompile⟩ :=
      (exists_compile_eq_ok_iff true "a + b = c").mpr ⟨by decide +kernel, hprogram⟩
    rw [hcompile] at hrejected
    contradiction

end Scriptlet
