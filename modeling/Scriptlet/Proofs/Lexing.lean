import Scriptlet.Token.Lexer
import Mathlib.Tactic.Common

/-! # The tokens of a script

`Scans` relates a lexer to the tokens that it hands out up to `eof`. Every token but the last two
takes a character, so the number of tokens that are collected is always enough to get to the end.
-/

namespace Scriptlet

namespace Lexeme

/-! ## Lexemes -/

theorem text_fraction_ne_nil {text : List Char} (htext : text ≠ []) (rest : List Char) :
    (fraction text rest).text ≠ [] := by
  unfold fraction numeral
  split <;> simp [htext]

/-- A lexeme has at least one character. -/
theorem text_read_ne_nil (c : Char) (cs : List Char) : (read c cs).text ≠ [] := by
  unfold read
  split
  · simp
  · unfold operator
    split <;> simp
  · split
    · unfold point
      split
      · exact text_fraction_ne_nil (List.cons_ne_nil _ _) _
      · simp
    · split
      · unfold quoted
        dsimp only
        split <;> simp
      · split
        · unfold number
          dsimp only
          split
          · exact text_fraction_ne_nil (by simp) _
          · unfold numeral
            split <;> simp
        · split <;> simp [word]

theorem length_rest_read_le (c : Char) (cs : List Char) : (read c cs).rest.length ≤ cs.length := by
  have hlength := congrArg List.length (read_append c cs)
  have htext := List.length_pos_iff.mpr (text_read_ne_nil c cs)
  rw [List.length_append, List.length_cons] at hlength
  omega

theorem kind_numeral_ne_eof (text rest : List Char) : (numeral text rest).kind ≠ .ok .eof := by
  unfold numeral
  split <;> simp

theorem kind_word_ne_eof (c : Char) (cs : List Char) : (word c cs).kind ≠ .ok .eof := by
  unfold word TokenKind.ofKeyword?
  dsimp only
  cases hfind : TokenKind.keywords.find?
      (·.name == String.ofList (c :: cs.takeWhile isWordChar)) with
  | none => simp
  | some kind =>
      have hkind : kind ∈ TokenKind.keywords := List.mem_of_find?_eq_some hfind
      rw [Option.getD_some]
      rintro ⟨⟩
      exact absurd hkind (by decide)

/-- No characters form an `eof` token. -/
theorem kind_read_ne_eof (c : Char) (cs : List Char) : (read c cs).kind ≠ .ok .eof := by
  unfold read
  split
  next kind hsingle =>
    rintro ⟨⟩
    unfold single? at hsingle
    split at hsingle <;> simp at hsingle
  next short long hsingle hequal =>
    unfold withEqual? at hequal
    unfold operator
    split at hequal <;> simp at hequal
    all_goals
      obtain ⟨rfl, rfl⟩ := hequal
      split <;> simp
  next =>
    split
    · unfold point
      split
      · exact kind_numeral_ne_eof _ _
      · simp
    · split
      · unfold quoted
        dsimp only
        split <;> simp
      · split
        · unfold number
          dsimp only
          split
          · exact kind_numeral_ne_eof _ _
          · exact kind_numeral_ne_eof _ _
        · split
          · exact kind_word_ne_eof c cs
          · simp

/-- The token that a lexeme at `pos` gives. -/
def token (lexeme : Lexeme) (pos : Pos) : Token :=
  match lexeme.kind with
  | .ok kind => ⟨kind, String.ofList lexeme.text, pos⟩
  | .error e => ⟨.error, e.message, pos⟩

theorem kind_token_read_ne_eof (c : Char) (cs : List Char) (pos : Pos) :
    ((read c cs).token pos).kind ≠ .eof := by
  have hkind := kind_read_ne_eof c cs
  unfold token
  split
  next kind hok =>
    rintro rfl
    exact hkind hok
  next => simp

end Lexeme

namespace Lexer

/-! ## Single tokens -/

/-- Skipping stops in front of a character or passes it, whatever the position and whatever
follows. -/
theorem skip_cons_cases (pending comment : Bool) (c : Char) :
    (∀ pos cs, skip pending comment pos (c :: cs) = (pos, c :: cs)) ∨
      ∃ comment', ∀ pos cs,
        skip pending comment pos (c :: cs) = skip pending comment' (pos.after c) cs := by
  simp only [skip]
  split
  · split
    · exact .inl fun _ _ => rfl
    · exact .inr ⟨false, fun _ _ => rfl⟩
  · split
    · exact .inr ⟨comment, fun _ _ => rfl⟩
    · split
      · exact .inr ⟨true, fun _ _ => rfl⟩
      · exact .inl fun _ _ => rfl

/-- Only a suffix is left of what has been skipped. -/
theorem length_skip_le (pending comment : Bool) (pos : Pos) (cs : List Char) :
    (skip pending comment pos cs).2.length ≤ cs.length := by
  induction cs generalizing comment pos with
  | nil => exact Nat.le_refl _
  | cons c cs ih =>
      rcases skip_cons_cases pending comment c with hstop | ⟨comment', hpass⟩
      · exact Nat.le_of_eq (congrArg (·.2.length) (hstop pos cs))
      · rw [hpass]
        exact Nat.le_succ_of_le (ih comment' _)

section Next

variable {lexer : Lexer} {pos : Pos}

theorem next_of_skip_nil (hskip : skip lexer.pending false lexer.pos lexer.rest = (pos, [])) :
    lexer.next = emit (if lexer.pending then .semicolon else .eof) "" pos pos [] := by
  simp only [next, hskip]

theorem next_of_skip_newline {cs : List Char}
    (hskip : skip lexer.pending false lexer.pos lexer.rest = (pos, '\n' :: cs)) :
    lexer.next = emit .semicolon "\n" pos (pos.after '\n') cs := by
  simp only [next, hskip]

theorem next_of_skip_cons {c : Char} {cs : List Char} (hc : c ≠ '\n')
    (hskip : skip lexer.pending false lexer.pos lexer.rest = (pos, c :: cs)) :
    lexer.next =
      ((Lexeme.read c cs).token pos,
        ⟨(Lexeme.read c cs).rest, pos.afterAll (Lexeme.read c cs).text,
          ((Lexeme.read c cs).token pos).kind.endsStatement⟩) := by
  simp only [next, hskip, Lexeme.token]
  cases (Lexeme.read c cs).kind <;> rfl

/-- A token takes a character, unless it is `eof` or the semicolon at the end of the script. -/
theorem next_shorter (hnext : lexer.next.1.kind ≠ .eof) :
    lexer.next.2.rest.length < lexer.rest.length ∨
      (lexer.pending = true ∧ lexer.next.2.rest = [] ∧ lexer.next.2.pending = false) := by
  have hle := length_skip_le lexer.pending false lexer.pos lexer.rest
  rcases hskip : skip lexer.pending false lexer.pos lexer.rest with ⟨pos, _ | ⟨c, cs⟩⟩
  · rw [next_of_skip_nil hskip] at hnext ⊢
    cases hpending : lexer.pending with
    | true => exact .inr ⟨rfl, rfl, rfl⟩
    | false => simp [hpending, emit] at hnext
  · rw [hskip] at hle
    by_cases hc : c = '\n'
    · subst hc
      rw [next_of_skip_newline hskip]
      exact .inl hle
    · rw [next_of_skip_cons hc hskip]
      exact .inl (Nat.lt_of_le_of_lt (Lexeme.length_rest_read_le c cs) hle)

end Next

/-! ## All tokens -/

/-- The tokens that a lexer hands out, the first `eof` included. -/
inductive Scans : Lexer → List Token → Prop
  | eof {lexer : Lexer} (hnext : lexer.next.1.kind = .eof) : Scans lexer [lexer.next.1]
  | cons {lexer : Lexer} {tokens : List Token} (hnext : lexer.next.1.kind ≠ .eof)
      (hrest : Scans lexer.next.2 tokens) : Scans lexer (lexer.next.1 :: tokens)

theorem Scans.exists_append {lexer : Lexer} {tokens : List Token} (hscans : lexer.Scans tokens) :
    ∃ before last, tokens = before ++ [last] ∧ last.kind = .eof ∧
      ∀ token ∈ before, token.kind ≠ .eof := by
  induction hscans with
  | eof hnext => exact ⟨[], _, rfl, hnext, by simp⟩
  | cons hnext _ ih =>
      obtain ⟨before, last, rfl, hlast, hbefore⟩ := ih
      exact ⟨_ :: before, last, rfl, hlast, List.forall_mem_cons.mpr ⟨hnext, hbefore⟩⟩

theorem Scans.ne_nil {lexer : Lexer} {tokens : List Token} (hscans : lexer.Scans tokens) :
    tokens ≠ [] := by
  cases hscans <;> exact List.cons_ne_nil _ _

/-- Lexers that hand out the same next token hand out the same tokens. -/
theorem Scans.of_next_eq {lexer other : Lexer} {tokens : List Token} (hscans : lexer.Scans tokens)
    (hnext : lexer.next = other.next) : other.Scans tokens := by
  cases hscans with
  | eof heof =>
      rw [hnext] at heof ⊢
      exact .eof heof
  | cons hne hrest =>
      rw [hnext] at hne hrest ⊢
      exact .cons hne hrest

/-- A lexer at the end of a script has only `eof` left; elsewhere two tokens more than characters
are enough. -/
theorem scans_collect (count : Nat) (lexer : Lexer) (acc : Array Token)
    (hcount : lexer.rest.length + 2 ≤ count ∨
      (lexer.rest = [] ∧ lexer.pending = false ∧ 1 ≤ count)) :
    ∃ tokens, (lexer.collect count acc).1.toList = acc.toList ++ tokens ∧ lexer.Scans tokens := by
  induction count generalizing lexer acc with
  | zero => omega
  | succ count ih =>
      rw [collect]
      dsimp only
      split
      next heof => exact ⟨[lexer.next.1], by simp, .eof heof⟩
      next hnext =>
        have hcount' : lexer.next.2.rest.length + 2 ≤ count ∨
            (lexer.next.2.rest = [] ∧ lexer.next.2.pending = false ∧ 1 ≤ count) := by
          rcases next_shorter hnext with hshorter | ⟨hpending, hrest, hcalm⟩
          · rcases hcount with hcount | ⟨hnil, _⟩
            · exact .inl (by omega)
            · simp [hnil] at hshorter
          · rcases hcount with hcount | ⟨_, hfalse, _⟩
            · exact .inr ⟨hrest, hcalm, by omega⟩
            · simp [hpending] at hfalse
        obtain ⟨tokens, hcollect, hscans⟩ := ih lexer.next.2 (acc.push lexer.next.1) hcount'
        exact ⟨lexer.next.1 :: tokens, by simp [hcollect], .cons hnext hscans⟩

end Lexer

/-- The tokens of a script are all that its lexer hands out. -/
theorem Token.scans_ofSource (source : String) :
    (Lexer.ofString source).Scans (Token.ofSource source).toList := by
  obtain ⟨tokens, hcollect, hscans⟩ := Lexer.scans_collect
    ((Lexer.ofString source).rest.length + 2) (.ofString source) #[] (.inl (Nat.le_refl _))
  have htokens : (Token.ofSource source).toList = tokens := by
    rw [Token.ofSource, Lexer.remaining, hcollect]
    simp
  exact htokens ▸ hscans

end Scriptlet
