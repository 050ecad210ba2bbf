import Scriptlet.Proofs.Reading.Positions
import Scriptlet.Proofs.Scanning

/-! # Layout

A script can be laid out anew, with its tokens one after the other and a space between any two. If
it has no bad tokens, it then has the same tokens at other positions, and so it is compiled to the
same code or rejected for the same reasons.
-/

namespace Scriptlet

/-- The texts of tokens with a space between any two. -/
def Token.spaced (tokens : List Token) : String :=
  " ".intercalate (tokens.map lexeme)

theorem Token.spaced_cons_cons (token next : Token) (tokens : List Token) :
    (spaced (token :: next :: tokens)).toList =
      token.lexeme.toList ++ ([' '] ++ (spaced (next :: tokens)).toList) := by
  rw [spaced, List.map_cons, List.map_cons, String.intercalate_cons_cons]
  simp [spaced]

theorem Token.bare_eq_bare_iff {token other : Token} :
    other.bare = token.bare ↔ other.kind = token.kind ∧ other.lexeme = token.lexeme := by
  simp [bare]

theorem Lexeme.bare_token (lexeme : Lexeme) (pos pos' : Pos) :
    (lexeme.token pos).bare = (lexeme.token pos').bare := by
  unfold token
  split <;> rfl

namespace Lexer

/-! ## Spaces -/

theorem gap_of_spaces {front : List Char} (hfront : ∀ c ∈ front, c = ' ') (rest : List Char) :
    Gap front rest := by
  induction front with
  | nil => exact .nil
  | cons c front ih =>
      rcases List.forall_mem_cons.mp hfront with ⟨hc, hfront'⟩
      subst hc
      exact .blank rfl (ih hfront')

theorem newline_not_mem_of_spaces {front : List Char} (hfront : ∀ c ∈ front, c = ' ') :
    '\n' ∉ front := by
  intro hmem
  exact absurd (hfront _ hmem) (by decide)

/-- The texts of the tokens of a script, with `eof` or without it. -/
def Laid (tokens : List Token) (cs : List Char) : Prop :=
  cs = (Token.spaced tokens).toList ∨ cs = (Token.spaced tokens.dropLast).toList

theorem Laid.eq_nil {token : Token} {cs : List Char} (hlexeme : token.lexeme = "")
    (hlaid : Laid [token] cs) : cs = [] := by
  rcases hlaid with rfl | rfl
  · simp [Token.spaced, hlexeme]
  · rfl

/-- A token is followed by a space, or by nothing. -/
theorem Laid.exists_of_cons {token next : Token} {tokens : List Token} {cs : List Char}
    (hlaid : Laid (token :: next :: tokens) cs) :
    ∃ front rest, cs = token.lexeme.toList ++ (front ++ rest) ∧ (∀ c ∈ front, c = ' ') ∧
      Lexeme.Separates (front ++ rest).head? ∧ Laid (next :: tokens) rest := by
  have hspace : ∀ rest : List Char, Lexeme.Separates ([' '] ++ rest).head? := by
    rintro rest c ⟨⟩
    decide
  rcases hlaid with rfl | rfl
  · exact ⟨[' '], _, Token.spaced_cons_cons token next tokens, by simp, hspace _, .inl rfl⟩
  · cases tokens with
    | nil =>
        refine ⟨[], [], ?_, by simp, by simp [Lexeme.Separates], .inr rfl⟩
        simp [Token.spaced]
    | cons other tokens =>
        exact ⟨[' '], _, Token.spaced_cons_cons token next _, by simp, hspace _, .inr rfl⟩

/-! ## Tokens -/

/-- A token is read from its own text too, if spaces surround it there. At the end of the script the
spaces after an inserted semicolon are passed before it. -/
theorem Yields.exists_laid {lexer after laid : Lexer} {token : Token}
    {front behind rest : List Char} (hyields : Yields lexer token after)
    (heof : token.kind ≠ .eof) (herror : token.kind ≠ .error)
    (hlaid : laid.rest = front ++ (token.lexeme.toList ++ (behind ++ rest)))
    (hfront : ∀ c ∈ front, c = ' ') (hbehind : ∀ c ∈ behind, c = ' ')
    (hseparates : Lexeme.Separates (behind ++ rest).head?)
    (hend : after.rest = [] → after.pending = false → rest = [])
    (hpending : laid.pending = lexer.pending) :
    ∃ token' after' front', Yields laid token' after' ∧ token'.bare = token.bare ∧
      after'.rest = front' ++ rest ∧ (∀ c ∈ front', c = ' ') ∧ after'.pending = after.pending := by
  cases hyields with
  | @atEnd gap pos pending =>
      cases pending with
      | false => exact absurd rfl heof
      | true =>
          obtain rfl := hend rfl rfl
          have hspaces : ∀ c ∈ front ++ behind, c = ' ' := by
            intro c hc
            rcases List.mem_append.mp hc with hc | hc
            · exact hfront c hc
            · exact hbehind c hc
          have hrest : laid.rest = front ++ behind := by simpa using hlaid
          rcases laid with ⟨all, pos', pending⟩
          obtain rfl : all = front ++ behind := hrest
          obtain rfl : pending = true := hpending
          exact ⟨_, _, [], .atEnd (gap_of_spaces hspaces [])
            fun _ => newline_not_mem_of_spaces hspaces, rfl, rfl, by simp, rfl⟩
  | lineEnd =>
      have hrest : laid.rest = front ++ '\n' :: (behind ++ rest) := by simpa using hlaid
      rcases laid with ⟨all, pos', pending⟩
      obtain rfl : all = front ++ '\n' :: (behind ++ rest) := hrest
      obtain rfl : pending = true := hpending
      exact ⟨_, _, behind, .lineEnd (gap_of_spaces hfront _) (newline_not_mem_of_spaces hfront),
        rfl, rfl, hbehind, rfl⟩
  | @lexeme gap lexeme pos pending hgap hline hstart hspells =>
      have htext := Lexeme.lexeme_token herror
      rw [htext, String.toList_ofList] at hlaid
      have hspells' : Lexeme.Spells lexeme.kind lexeme.text (behind ++ rest).head? := by
        rcases lexeme with ⟨kind, text, rest⟩
        cases kind with
        | error e => exact absurd rfl herror
        | ok kind => exact Lexeme.Spells.of_separates hseparates hspells
      obtain ⟨pos', after', hyields, hrest, hafter⟩ := exists_yields_lexeme hlaid
        (gap_of_spaces hfront _) (fun _ => newline_not_mem_of_spaces hfront) hstart hspells'
      refine ⟨_, after', behind, hyields, lexeme.bare_token _ _, hrest, hbehind, ?_⟩
      rw [hafter, lexeme.kind_token pos' (pos.afterAll gap)]

theorem pending_of_eof {lexer : Lexer} (heof : lexer.next.1.kind = .eof) :
    lexer.pending = false := by
  have hyields := lexer.yields_next
  generalize lexer.next.1 = token at heof hyields
  generalize lexer.next.2 = after at hyields
  cases hyields with
  | @atEnd gap pos pending =>
      cases pending with
      | false => rfl
      | true => contradiction
  | lineEnd => contradiction
  | lexeme _ _ _ hspells => exact absurd heof (hspells.kind_token_ne_eof _)

theorem lexeme_of_eof {lexer : Lexer} (heof : lexer.next.1.kind = .eof) :
    lexer.next.1.lexeme = "" := by
  obtain ⟨gap, text, htakes⟩ := lexer.exists_takes_next
  rw [htakes.lexeme (by simp [heof]), (htakes.eof heof).1, String.ofList_nil]

/-- Laid out anew, a script has the same tokens. -/
theorem Scans.map_bare_laid {lexer laid : Lexer} {tokens others : List Token}
    {front cs : List Char} (hscans : lexer.Scans tokens) (hothers : laid.Scans others)
    (hclean : ∀ token ∈ tokens, token.kind ≠ .error) (hrest : laid.rest = front ++ cs)
    (hfront : ∀ c ∈ front, c = ' ') (hlaid : Laid tokens cs)
    (hpending : laid.pending = lexer.pending) :
    others.map Token.bare = tokens.map Token.bare := by
  induction hscans generalizing laid others front cs with
  | @eof lexer hnext =>
      obtain rfl := hlaid.eq_nil (lexeme_of_eof hnext)
      have heof : laid.next.1.kind = .eof := by
        rcases laid with ⟨all, pos, pending⟩
        obtain rfl : all = front := hrest.trans (List.append_nil front)
        obtain rfl : pending = false := hpending.trans (pending_of_eof hnext)
        rw [(Yields.atEnd (gap_of_spaces hfront []) (by simp)).next_eq]
        rfl
      cases hothers with
      | eof _ =>
          have hbare : laid.next.1.bare = lexer.next.1.bare := by
            rw [Token.bare_eq_bare_iff, heof, hnext, lexeme_of_eof heof, lexeme_of_eof hnext]
            exact ⟨rfl, rfl⟩
          rw [List.map_singleton, List.map_singleton, hbare]
      | cons hne _ => contradiction
  | @cons lexer tokens hnext hscans ih =>
      rcases List.forall_mem_cons.mp hclean with ⟨herror, hclean⟩
      obtain ⟨next, more, rfl⟩ := List.exists_cons_of_ne_nil hscans.ne_nil
      obtain ⟨behind, rest, rfl, hbehind, hseparates, hlaid⟩ := hlaid.exists_of_cons
      have hend : lexer.next.2.rest = [] → lexer.next.2.pending = false → rest = [] := by
        intro hnil hcalm
        cases hscans with
        | eof heof => exact hlaid.eq_nil (lexeme_of_eof heof)
        | cons hne _ => exact absurd (kind_next_of_nil hnil hcalm) hne
      obtain ⟨token, after, front', hyields, hbare, hafter, hfront', hpending'⟩ :=
        lexer.yields_next.exists_laid hnext herror hrest hfront hbehind hseparates hend hpending
      have hkind := (Token.bare_eq_bare_iff.mp hbare).1
      have hlaid_next := hyields.next_eq
      cases hothers with
      | eof heof =>
          rw [hlaid_next] at heof
          exact absurd (hkind.symm.trans heof) hnext
      | cons _ hothers =>
          rw [hlaid_next] at hothers ⊢
          rw [List.map_cons, List.map_cons, hbare,
            ih hothers hclean hafter hfront' hlaid hpending']

end Lexer

theorem Token.map_bare_ofSource {source layout : String}
    (hclean : ∀ token ∈ ofSource source, token.kind ≠ .error)
    (hlayout : layout = spaced (ofSource source).toList ∨
      layout = spaced (ofSource source).toList.dropLast) :
    (ofSource layout).toList.map bare = (ofSource source).toList.map bare := by
  have hlaid : Lexer.Laid (ofSource source).toList layout.toList :=
    hlayout.imp (congrArg String.toList) (congrArg String.toList)
  exact (scans_ofSource source).map_bare_laid (scans_ofSource layout)
    (fun token hmem => hclean token (Array.mem_toList_iff.mp hmem)) (List.nil_append _).symm
    (by simp) hlaid rfl

/-! ## Compiling -/

theorem Diagnostic.map_of_map_bare {ds others : List Diagnostic}
    (hbare : others.map bare = ds.map bare) :
    others.map (fun d => (d.error, d.lexeme)) = ds.map (fun d => (d.error, d.lexeme)) := by
  have hpairs := congrArg (List.map fun d => (d.error, d.lexeme)) hbare
  rw [List.map_map, List.map_map] at hpairs
  exact hpairs

/-- Scripts whose tokens differ in their positions alone are compiled to the same code with the
same constants, or are rejected with the same errors. -/
theorem compile_of_map_bare {source other : String}
    (htokens : (Token.ofSource other).toList.map Token.bare =
      (Token.ofSource source).toList.map Token.bare) (recovery : Bool) :
    (∃ chunk chunk', compile recovery source = .ok chunk ∧ compile recovery other = .ok chunk' ∧
        chunk'.code = chunk.code ∧ chunk'.pool = chunk.pool) ∨
      ∃ rejection rejection', compile recovery source = .error rejection ∧
        compile recovery other = .error rejection' ∧ rejection'.ended = rejection.ended ∧
        rejection'.diagnostics.map (fun d => (d.error, d.lexeme)) =
          rejection.diagnostics.map (fun d => (d.error, d.lexeme)) := by
  have hread := Program.ofTokens_congr htokens recovery
  unfold compile
  cases hsource : Program.ofTokens recovery (Token.ofSource source).toList with
  | error diagnostics =>
      cases hother : Program.ofTokens recovery (Token.ofSource other).toList with
      | error diagnostics' =>
          rw [hsource, hother] at hread
          exact .inr ⟨_, _, rfl, rfl, rfl, Diagnostic.map_of_map_bare (Except.error.inj hread)⟩
      | ok result' =>
          rw [hsource, hother] at hread
          contradiction
  | ok result =>
      cases hother : Program.ofTokens recovery (Token.ofSource other).toList with
      | error diagnostics' =>
          rw [hsource, hother] at hread
          contradiction
      | ok result' =>
          rw [hsource, hother] at hread
          rcases result with ⟨program, p⟩
          rcases result' with ⟨program', p'⟩
          rcases Prod.mk.inj (Except.ok.inj hread) with ⟨hprogram, hp⟩
          have hpool := congrArg Parser.pool hp
          rw [Parser.pool_bare, Parser.pool_bare] at hpool
          have hdiagnostics : p'.diagnostics.map Diagnostic.bare =
              p.diagnostics.map Diagnostic.bare := congrArg Parser.diagnostics hp
          have hempty : p'.diagnostics.isEmpty = p.diagnostics.isEmpty := by
            rw [← List.isEmpty_map (f := Diagnostic.bare), hdiagnostics, List.isEmpty_map]
          dsimp only
          rw [hempty]
          split
          · refine .inl ⟨_, _, rfl, rfl, ?_, hpool⟩
            apply Array.toList_inj.mp
            rw [Program.code_lower, Program.code_lower, ← program'.instrs_bare,
              ← program.instrs_bare, hpool]
            exact congrArg (fun program => Program.instrs program p.pool ++ [.halt]) hprogram
          · exact .inr ⟨_, _, rfl, rfl, rfl, Diagnostic.map_of_map_bare hdiagnostics⟩

/-- The layout of a script does not matter. With a space between any two tokens, where a semicolon
that was inserted is still the line end or the end of the script that stood for it, the script has
the same tokens and the same code and constants, or the same errors. -/
theorem compile_spaced {source layout : String}
    (hclean : ∀ token ∈ Token.ofSource source, token.kind ≠ .error)
    (hlayout : layout = Token.spaced (Token.ofSource source).toList ∨
      layout = Token.spaced (Token.ofSource source).toList.dropLast) :
    (Token.ofSource layout).toList.map (fun token => (token.kind, token.lexeme)) =
        (Token.ofSource source).toList.map (fun token => (token.kind, token.lexeme)) ∧
      ∀ recovery,
        (∃ chunk chunk', compile recovery source = .ok chunk ∧
            compile recovery layout = .ok chunk' ∧ chunk'.code = chunk.code ∧
            chunk'.pool = chunk.pool) ∨
          ∃ rejection rejection', compile recovery source = .error rejection ∧
            compile recovery layout = .error rejection' ∧ rejection'.ended = rejection.ended ∧
            rejection'.diagnostics.map (fun d => (d.error, d.lexeme)) =
              rejection.diagnostics.map (fun d => (d.error, d.lexeme)) := by
  have htokens := Token.map_bare_ofSource hclean hlayout
  refine ⟨?_, compile_of_map_bare htokens⟩
  have hpairs := congrArg (List.map fun token => (token.kind, token.lexeme)) htokens
  rw [List.map_map, List.map_map] at hpairs
  exact hpairs

/-- Without the spaces that it could do without, and with a comment. -/
def Token.denseScript : String := "decl a=.5 # half\nprint(a!=11.)"

theorem compile_spaced_dense :
    Token.spaced (Token.ofSource Token.denseScript).toList.dropLast =
        "decl a = .5 \n print ( a != 11. ) " ∧
      ∃ chunk chunk', compile false Token.denseScript = .ok chunk ∧
        compile false "decl a = .5 \n print ( a != 11. ) " = .ok chunk' ∧
        chunk'.code = chunk.code ∧ chunk'.pool = chunk.pool := by
  have hlayout : Token.spaced (Token.ofSource Token.denseScript).toList.dropLast =
      "decl a = .5 \n print ( a != 11. ) " := by
    decide +kernel
  obtain ⟨chunk, hchunk⟩ : ∃ chunk, compile false Token.denseScript = .ok chunk :=
    exists_of_isOk_compile (by decide +kernel)
  refine ⟨hlayout, ?_⟩
  rcases (compile_spaced (by decide +kernel) (.inr hlayout.symm)).2 false with hsame | hrejected
  · exact hsame
  · obtain ⟨rejection, _, hrejection, _⟩ := hrejected
    rw [hchunk] at hrejection
    contradiction

end Scriptlet
