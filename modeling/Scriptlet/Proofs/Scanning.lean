import Mathlib.Data.Nat.Find
import Mathlib.Logic.Function.Iterate
import Scriptlet.Proofs.Joining.Tokens
import Scriptlet.Proofs.Lexemes

/-! # Tokens and the gaps before them

What a lexer hands out next, without regard to how it gets there: it passes a gap of blanks and
comments, and then takes a lexeme, a line end that counts as a semicolon, or nothing at the end of
the script.
-/

namespace Scriptlet

/-! ## Tokens of lexemes -/

theorem Token.kind_of_isSynthetic {token : Token} (hsynthetic : token.isSynthetic = true) :
    token.kind = .semicolon := by
  simp only [isSynthetic, Bool.and_eq_true, beq_iff_eq] at hsynthetic
  exact hsynthetic.1

namespace Lexeme

theorem pos_token (lexeme : Lexeme) (pos : Pos) : (lexeme.token pos).pos = pos := by
  unfold token
  split <;> rfl

theorem lexeme_token {lexeme : Lexeme} {pos : Pos} (hkind : (lexeme.token pos).kind ≠ .error) :
    (lexeme.token pos).lexeme = String.ofList lexeme.text := by
  unfold token at hkind ⊢
  split at hkind
  next => rfl
  next => contradiction

theorem kind_token (lexeme : Lexeme) (pos pos' : Pos) :
    (lexeme.token pos).kind = (lexeme.token pos').kind := by
  unfold token
  split <;> rfl

section Spells

variable {lexeme : Lexeme} (hspells : Spells lexeme.kind lexeme.text lexeme.rest.head?) (pos : Pos)

include hspells

theorem Spells.kind_token_ne_eof : (lexeme.token pos).kind ≠ .eof := by
  rcases lexeme with ⟨kind, text, rest⟩
  obtain ⟨c, cs, rfl⟩ := List.exists_cons_of_ne_nil hspells.ne_nil
  rw [← read_of_spells hspells rfl]
  exact kind_token_read_ne_eof c _ pos

theorem Spells.isSynthetic_token : (lexeme.token pos).isSynthetic = false := by
  rcases lexeme with ⟨kind, text, rest⟩
  cases kind with
  | error e => rfl
  | ok kind =>
      by_cases hkind : kind = .semicolon
      · subst hkind
        obtain rfl : text = [';'] := hspells.eq_of_semicolon
        rfl
      · simp [token, Token.isSynthetic, hkind]

end Spells

end Lexeme

namespace Lexer

/-! ## Gaps -/

/-- Characters that separate tokens. A line end separates them too where it is no semicolon. -/
def isBlank (c : Char) : Bool :=
  c == ' ' || c == '\t' || c == '\r' || c == '\n'

/-- `Gap gap rest` if `gap` in front of `rest` is no part of a token. A comment runs to the end of
its line, which may be a line end in `rest`. -/
inductive Gap : List Char → List Char → Prop
  | nil {rest : List Char} : Gap [] rest
  | blank {c : Char} {gap rest : List Char} (hc : isBlank c = true) (hgap : Gap gap rest) :
      Gap (c :: gap) rest
  | comment {text gap rest : List Char} (htext : '\n' ∉ text) (hline : EndsLine (gap ++ rest))
      (hgap : Gap gap rest) : Gap ('#' :: text ++ gap) rest

/-- Of what follows a gap, the first character matters alone. -/
theorem Gap.of_head?_eq {gap rest rest' : List Char} (hgap : Gap gap rest)
    (hhead : rest'.head? = rest.head?) : Gap gap rest' := by
  induction hgap with
  | nil => exact .nil
  | blank hc _ ih => exact .blank hc (ih hhead)
  | comment htext hline _ ih =>
      refine .comment htext ?_ (ih hhead)
      rw [EndsLine, List.head?_append, hhead, ← List.head?_append]
      exact hline

theorem Gap.append {front gap rest : List Char} (hfront : Gap front (gap ++ rest))
    (hgap : Gap gap rest) : Gap (front ++ gap) rest := by
  generalize hall : gap ++ rest = all at hfront
  induction hfront with
  | nil => exact hgap
  | blank hc _ ih => exact .blank hc (ih hall)
  | @comment text inner all htext hline _ ih =>
      rw [List.append_assoc]
      refine .comment htext ?_ (ih hall)
      rw [List.append_assoc, hall]
      exact hline

/-- Neither a blank nor a comment starts with the character. -/
def StartsToken (c : Char) : Prop :=
  isBlank c = false ∧ c ≠ '#'

/-! ## Passing gaps -/

section Skip

variable {pending : Bool} {gap rest : List Char}

theorem skip_comment {text tail : List Char} (htext : '\n' ∉ text) (htail : EndsLine tail)
    (pos : Pos) :
    skip pending true pos (text ++ tail) = skip pending false (pos.afterAll text) tail := by
  induction text generalizing pos with
  | nil =>
      cases tail with
      | nil => rfl
      | cons c tail =>
          obtain rfl : c = '\n' := htail c rfl
          rfl
  | cons c text ih =>
      rcases List.ne_and_not_mem_of_not_mem_cons htext with ⟨hc, htext⟩
      rw [List.cons_append, skip, if_neg hc.symm, if_pos (by simp)]
      exact ih htext _

theorem skip_gap (hgap : Gap gap rest) (hline : pending = true → '\n' ∉ gap) (pos : Pos) :
    skip pending false pos (gap ++ rest) = skip pending false (pos.afterAll gap) rest := by
  induction hgap generalizing pos with
  | nil => rfl
  | @blank c gap rest hc _ ih =>
      have hnext := ih (fun hpending hmem => hline hpending (List.mem_cons_of_mem _ hmem))
        (pos.after c)
      rw [List.cons_append, skip]
      by_cases hnewline : c = '\n'
      · have hpending : pending = false := by
          rw [Bool.eq_false_iff]
          intro hpending
          exact hline hpending (hnewline ▸ List.mem_cons_self)
        rw [if_pos hnewline, hpending]
        rw [hpending] at hnext
        exact hnext
      · have hpass : (false || c == ' ' || c == '\t' || c == '\r') = true := by
          simpa [isBlank, hnewline] using hc
        rw [if_neg hnewline, if_pos hpass]
        exact hnext
  | @comment text gap rest htext hends _ ih =>
      have hnext := ih (fun hpending hmem => hline hpending (List.mem_append_right _ hmem))
        ((pos.after '#').afterAll text)
      rw [List.append_assoc, List.cons_append, skip, if_neg (by decide), if_neg (by decide),
        if_pos rfl, skip_comment htext hends, hnext]
      simp [Pos.afterAll]

/-- Where a gap ends: at the end of the script, at a line end that is a semicolon, or at a
lexeme. -/
def Stops (pending : Bool) (rest : List Char) : Prop :=
  ∀ c ∈ rest.head?, c = '\n' ∧ pending = true ∨ StartsToken c

theorem skip_stop (hstops : Stops pending rest) (pos : Pos) :
    skip pending false pos rest = (pos, rest) := by
  cases rest with
  | nil => rfl
  | cons c rest =>
      rcases hstops c rfl with ⟨rfl, rfl⟩ | ⟨hblank, hcomment⟩
      · rfl
      · have hnewline : c ≠ '\n' := by
          rintro rfl
          contradiction
        have hpass : (false || c == ' ' || c == '\t' || c == '\r') = false := by
          simpa [isBlank, hnewline] using hblank
        rw [skip, if_neg hnewline, hpass, if_neg (by simp), if_neg hcomment]

/-- To skip a gap in front of a line end that is a semicolon. -/
theorem skip_to_lineEnd (hgap : Gap gap ('\n' :: rest)) (hline : '\n' ∉ gap) (pos : Pos) :
    skip true false pos (gap ++ '\n' :: rest) = (pos.afterAll gap, '\n' :: rest) := by
  have hstops : Stops true ('\n' :: rest) := by simp [Stops]
  exact (skip_gap hgap (fun _ => hline) pos).trans (skip_stop hstops _)

/-- To skip a gap in front of a lexeme. -/
theorem skip_to_lexeme {text : List Char} (hgap : Gap gap (text ++ rest))
    (hline : pending = true → '\n' ∉ gap) (hne : text ≠ [])
    (hstart : ∀ c ∈ text.head?, StartsToken c) (pos : Pos) :
    skip pending false pos (gap ++ (text ++ rest)) = (pos.afterAll gap, text ++ rest) := by
  have hstops : Stops pending (text ++ rest) := by
    intro c hc
    rw [List.head?_append_of_ne_nil _ hne] at hc
    exact .inr (hstart c hc)
  exact (skip_gap hgap hline pos).trans (skip_stop hstops _)

/-- To skip what is left of a script. -/
theorem skip_to_end (hgap : Gap gap []) (hline : pending = true → '\n' ∉ gap) (pos : Pos) :
    skip pending false pos gap = (pos.afterAll gap, []) := by
  have hskip := skip_gap hgap hline pos
  rw [List.append_nil] at hskip
  exact hskip

/-- Every text has a gap at its front, which may be empty. -/
theorem exists_gap (pending : Bool) (cs : List Char) :
    ∃ gap rest, cs = gap ++ rest ∧ Gap gap rest ∧ (pending = true → '\n' ∉ gap) ∧
      Stops pending rest := by
  induction hlength : cs.length using Nat.strong_induction_on generalizing cs with
  | _ length ih =>
      cases cs with
      | nil => exact ⟨[], [], rfl, .nil, by simp, by simp [Stops]⟩
      | cons c cs =>
          rw [List.length_cons] at hlength
          by_cases hstops : Stops pending (c :: cs)
          · exact ⟨[], c :: cs, rfl, .nil, by simp, hstops⟩
          have hc : ¬(c = '\n' ∧ pending = true) ∧ ¬StartsToken c := by
            simpa [Stops] using hstops
          by_cases hblank : isBlank c = true
          · obtain ⟨gap, rest, rfl, hgap, hline, hrest⟩ := ih cs.length (by omega) cs rfl
            refine ⟨c :: gap, rest, rfl, .blank hblank hgap, fun hpending => ?_, hrest⟩
            refine List.not_mem_cons_of_ne_of_not_mem (fun heq => ?_) (hline hpending)
            exact hc.1 ⟨heq.symm, hpending⟩
          · have hcomment : c = '#' := by
              by_contra hne
              exact hc.2 ⟨by simpa using hblank, hne⟩
            -- The comment is the rest of the line.
            have hshorter : (cs.dropWhile (· != '\n')).length ≤ cs.length :=
              (List.dropWhile_suffix _).length_le
            obtain ⟨gap, rest, hsplit, hgap, hline, hrest⟩ :=
              ih _ (by omega) (cs.dropWhile (· != '\n')) rfl
            have htext : '\n' ∉ cs.takeWhile (· != '\n') := by
              intro hmem
              simpa using List.mem_takeWhile_imp hmem
            have hends : EndsLine (gap ++ rest) := by
              intro d hd
              rw [← hsplit] at hd
              have hstop := Lexeme.any_head?_dropWhile (· != '\n') cs
              rw [hd] at hstop
              simpa using hstop
            refine ⟨'#' :: cs.takeWhile (· != '\n') ++ gap, rest, ?_, .comment htext hends hgap,
              fun hpending => ?_, hrest⟩
            · rw [List.append_assoc, ← hsplit, List.cons_append, hcomment,
                List.takeWhile_append_dropWhile]
            · simp only [List.cons_append, List.mem_cons, List.mem_append, not_or]
              exact ⟨by decide, htext, hline hpending⟩

end Skip

/-! ## Tokens -/

/-- What a lexer hands out next, and where it stands then. -/
inductive Yields : Lexer → Token → Lexer → Prop
  /-- Nothing but a gap is left. -/
  | atEnd {gap : List Char} {pos : Pos} {pending : Bool} (hgap : Gap gap [])
      (hline : pending = true → '\n' ∉ gap) :
      Yields ⟨gap, pos, pending⟩ ⟨if pending then .semicolon else .eof, "", pos.afterAll gap⟩
        ⟨[], pos.afterAll gap, false⟩
  /-- The line ends where a statement may end. -/
  | lineEnd {gap rest : List Char} {pos : Pos} (hgap : Gap gap ('\n' :: rest))
      (hline : '\n' ∉ gap) :
      Yields ⟨gap ++ '\n' :: rest, pos, true⟩ ⟨.semicolon, "\n", pos.afterAll gap⟩
        ⟨rest, (pos.afterAll gap).after '\n', false⟩
  | lexeme {gap : List Char} {lexeme : Lexeme} {pos : Pos} {pending : Bool}
      (hgap : Gap gap (lexeme.text ++ lexeme.rest)) (hline : pending = true → '\n' ∉ gap)
      (hstart : ∀ c ∈ lexeme.text.head?, StartsToken c)
      (hspells : Lexeme.Spells lexeme.kind lexeme.text lexeme.rest.head?) :
      Yields ⟨gap ++ (lexeme.text ++ lexeme.rest), pos, pending⟩ (lexeme.token (pos.afterAll gap))
        ⟨lexeme.rest, (pos.afterAll gap).afterAll lexeme.text,
          (lexeme.token (pos.afterAll gap)).kind.endsStatement⟩

/-- Every lexer yields a token, the one that it hands out. -/
theorem yields_next (lexer : Lexer) : Yields lexer lexer.next.1 lexer.next.2 := by
  rcases lexer with ⟨cs, pos, pending⟩
  obtain ⟨gap, rest, rfl, hgap, hline, hstops⟩ := exists_gap pending cs
  have hskip := (skip_gap hgap hline pos).trans (skip_stop hstops _)
  cases rest with
  | nil =>
      rw [next_of_skip_nil hskip, List.append_nil]
      cases pending <;> exact .atEnd hgap hline
  | cons c cs =>
      by_cases hnewline : c = '\n'
      · subst hnewline
        have hpending : pending = true := by
          rcases hstops '\n' rfl with h | h
          · exact h.2
          · exact absurd h.1 (by decide)
        subst hpending
        rw [next_of_skip_newline hskip]
        exact .lineEnd hgap (hline rfl)
      · have hstart : StartsToken c := by
          rcases hstops c rfl with h | h
          · exact absurd h.1 hnewline
          · exact h
        have hread := Lexeme.read_append c cs
        rw [next_of_skip_cons hnewline hskip]
        rw [← hread] at hgap ⊢
        refine .lexeme hgap hline ?_ (Lexeme.spells_read c cs)
        intro d hd
        have hhead : d ∈ (c :: cs).head? := by
          rw [← hread, List.head?_append_of_ne_nil _ (Lexeme.text_read_ne_nil c cs)]
          exact hd
        cases hhead
        exact hstart

/-- A lexer yields no other token. -/
theorem Yields.next_eq {lexer after : Lexer} {token : Token} (hyields : Yields lexer token after) :
    lexer.next = (token, after) := by
  cases hyields with
  | @atEnd gap pos pending hgap hline =>
      rw [next_of_skip_nil (skip_to_end hgap hline pos)]
      cases pending <;> rfl
  | @lineEnd gap rest pos hgap hline => exact next_of_skip_newline (skip_to_lineEnd hgap hline pos)
  | @lexeme gap lexeme pos pending hgap hline hstart hspells =>
      rcases lexeme with ⟨kind, text, rest⟩
      obtain ⟨c, cs, rfl⟩ := List.exists_cons_of_ne_nil hspells.ne_nil
      have hskip : skip pending false pos (gap ++ (c :: cs ++ rest)) =
          (pos.afterAll gap, c :: (cs ++ rest)) :=
        skip_to_lexeme hgap hline (List.cons_ne_nil c cs) hstart pos
      have hnewline : c ≠ '\n' := by
        rintro rfl
        exact absurd (hstart _ rfl).1 (by decide)
      rw [next_of_skip_cons hnewline hskip, Lexeme.read_of_spells hspells rfl]

/-- A lexer that has a lexeme behind a gap hands it out, whatever follows the next character. -/
theorem exists_yields_lexeme {lexer : Lexer} {gap rest : List Char} {lexeme : Lexeme}
    (hrest : lexer.rest = gap ++ (lexeme.text ++ rest)) (hgap : Gap gap (lexeme.text ++ rest))
    (hline : lexer.pending = true → '\n' ∉ gap) (hstart : ∀ c ∈ lexeme.text.head?, StartsToken c)
    (hspells : Lexeme.Spells lexeme.kind lexeme.text rest.head?) :
    ∃ pos after, Yields lexer (lexeme.token pos) after ∧ after.rest = rest ∧
      after.pending = (lexeme.token pos).kind.endsStatement := by
  rcases lexer with ⟨all, pos, pending⟩
  obtain rfl : all = gap ++ (lexeme.text ++ rest) := hrest
  have hyields := @Yields.lexeme gap ⟨lexeme.kind, lexeme.text, rest⟩ pos pending hgap hline hstart
    hspells
  exact ⟨_, _, hyields, rfl, rfl⟩

/-! ## The text of a token -/

/-- What a token takes from the script: a gap, and the text from which it is read. -/
structure Takes (lexer : Lexer) (gap text : List Char) (token : Token) (after : Lexer) : Prop where
  rest : lexer.rest = gap ++ (text ++ after.rest)
  isGap : Gap gap (text ++ after.rest)
  skip : skip lexer.pending false lexer.pos lexer.rest =
    (lexer.pos.afterAll gap, text ++ after.rest)
  start : token.pos = lexer.pos.afterAll gap
  stop : after.pos = token.pos.afterAll text
  pending : after.pending = token.kind.endsStatement
  lexeme : token.kind ≠ .error → token.lexeme = String.ofList text
  synthetic : token.isSynthetic = true → text = ['\n'] ∨ text = [] ∧ after.rest = []
  eof : token.kind = .eof → text = [] ∧ after.rest = []

/-- Every token is read from a text behind a gap. -/
theorem Yields.exists_takes {lexer after : Lexer} {token : Token}
    (hyields : Yields lexer token after) : ∃ gap text, lexer.Takes gap text token after := by
  cases hyields with
  | @atEnd gap pos pending hgap hline =>
      refine ⟨gap, [], by simp, hgap, skip_to_end hgap hline pos, rfl, rfl, ?_, fun _ => rfl,
        fun _ => .inr ⟨rfl, rfl⟩, fun _ => ⟨rfl, rfl⟩⟩
      cases pending <;> rfl
  | @lineEnd gap rest pos hgap hline =>
      exact ⟨gap, ['\n'], rfl, hgap, skip_to_lineEnd hgap hline pos, rfl, rfl, rfl,
        fun _ => rfl, fun _ => .inl rfl, by simp⟩
  | @lexeme gap lexeme pos pending hgap hline hstart hspells =>
      have hskip := skip_to_lexeme hgap hline hspells.ne_nil hstart pos
      refine ⟨gap, lexeme.text, rfl, hgap, hskip, lexeme.pos_token _, ?_, rfl,
        Lexeme.lexeme_token, fun hsynthetic => ?_, fun heof => ?_⟩
      · rw [lexeme.pos_token]
      · rw [hspells.isSynthetic_token] at hsynthetic
        contradiction
      · exact absurd heof (hspells.kind_token_ne_eof _)

theorem exists_takes_next (lexer : Lexer) :
    ∃ gap text, lexer.Takes gap text lexer.next.1 lexer.next.2 :=
  lexer.yields_next.exists_takes

/-! ## Tokens one after the other -/

/-- The lexer after it has handed out `n` tokens. -/
def advance (lexer : Lexer) (n : Nat) : Lexer :=
  (fun lexer => lexer.next.2)^[n] lexer

theorem advance_succ (lexer : Lexer) (n : Nat) :
    lexer.advance (n + 1) = (lexer.advance n).next.2 :=
  Function.iterate_succ_apply' _ n lexer

/-- The token number `n` of a script. -/
def nthToken (source : String) (n : Nat) : Token :=
  ((ofString source).advance n).next.1

theorem Scans.exists_eof {lexer : Lexer} {tokens : List Token} (hscans : lexer.Scans tokens) :
    ∃ n, (lexer.advance n).next.1.kind = .eof := by
  induction hscans with
  | eof hnext => exact ⟨0, hnext⟩
  | cons _ _ ih =>
      rcases ih with ⟨n, hn⟩
      exact ⟨n + 1, hn⟩

theorem kind_next_of_nil {lexer : Lexer} (hrest : lexer.rest = [])
    (hpending : lexer.pending = false) : lexer.next.1.kind = .eof := by
  rcases lexer with ⟨rest, pos, pending⟩
  obtain rfl : rest = [] := hrest
  obtain rfl : pending = false := hpending
  rfl

/-- Nothing follows the end of a script. -/
theorem kind_next_of_eof {lexer : Lexer} (heof : lexer.next.1.kind = .eof) :
    lexer.next.2.next.1.kind = .eof := by
  obtain ⟨gap, text, htakes⟩ := lexer.exists_takes_next
  apply kind_next_of_nil (htakes.eof heof).2
  rw [htakes.pending, heof]
  rfl

/-- From some token on, the lexer hands out `eof` alone. -/
theorem exists_last (source : String) :
    ∃ last, ∀ n, (nthToken source n).kind = .eof ↔ last ≤ n := by
  have hexists := (Token.scans_ofSource source).exists_eof
  refine ⟨Nat.find hexists, fun n => ⟨Nat.find_min' hexists, fun hle => ?_⟩⟩
  induction n, hle using Nat.le_induction with
  | base => exact Nat.find_spec hexists
  | succ n _ ih =>
      rw [nthToken, advance_succ]
      exact kind_next_of_eof ih

end Lexer

end Scriptlet
