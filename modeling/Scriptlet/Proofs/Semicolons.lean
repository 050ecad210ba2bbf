import Scriptlet.Proofs.Scanning

/-! # Semicolons that line ends stand for

A semicolon is inserted where the line ends after a token that may end a statement, and nowhere
else. If the semicolon is written there instead, the script has tokens of the same kinds, and no
semicolon is inserted any more.
-/

namespace Scriptlet

namespace Lexer

/-! ## Where semicolons are inserted -/

/-- Nothing but blanks, and perhaps a comment, is left of the line. -/
def ClosesLine (rest : List Char) : Prop :=
  ∃ blanks comment tail, rest = blanks ++ (comment ++ tail) ∧
    (∀ c ∈ blanks, c = ' ' ∨ c = '\t' ∨ c = '\r') ∧
    (comment = [] ∨ ∃ text, comment = '#' :: text ∧ '\n' ∉ text) ∧ EndsLine tail

theorem Gap.closesLine {gap rest : List Char} (hgap : Gap gap rest) (hline : '\n' ∉ gap)
    (hrest : EndsLine rest) : ClosesLine (gap ++ rest) := by
  induction hgap with
  | nil => exact ⟨[], [], _, rfl, by simp, .inl rfl, hrest⟩
  | @blank c gap rest hc _ ih =>
      rcases List.ne_and_not_mem_of_not_mem_cons hline with ⟨hnewline, hline⟩
      obtain ⟨blanks, comment, tail, hsplit, hblanks, hcomment⟩ := ih hline hrest
      refine ⟨c :: blanks, comment, tail, congrArg (c :: ·) hsplit, ?_, hcomment⟩
      refine List.forall_mem_cons.mpr ⟨?_, hblanks⟩
      simpa [isBlank, hnewline.symm, or_assoc] using hc
  | @comment text gap rest htext hends _ _ =>
      -- The comment ends with its line, so nothing of the gap is left behind it.
      have hnil : gap = [] := by
        cases gap with
        | nil => rfl
        | cons c gap =>
            obtain rfl : c = '\n' := hends c rfl
            simp at hline
      subst hnil
      exact ⟨[], '#' :: text, rest, by simp, by simp, .inr ⟨text, rfl, htext⟩, hrest⟩

theorem ClosesLine.exists_gap {rest : List Char} (hcloses : ClosesLine rest) :
    ∃ gap tail, rest = gap ++ tail ∧ Gap gap tail ∧ '\n' ∉ gap ∧ EndsLine tail := by
  obtain ⟨blanks, comment, tail, rfl, hblanks, hcomment, htail⟩ := hcloses
  refine ⟨blanks ++ comment, tail, (List.append_assoc ..).symm, ?_, ?_, htail⟩
  · induction blanks with
    | nil =>
        rcases hcomment with rfl | ⟨text, rfl, htext⟩
        · exact .nil
        · have hgap : Gap ('#' :: text ++ []) tail := .comment htext htail .nil
          rw [List.append_nil] at hgap
          exact hgap
    | cons c blanks ih =>
        rcases List.forall_mem_cons.mp hblanks with ⟨hc, hblanks⟩
        refine .blank ?_ (ih hblanks)
        rcases hc with rfl | rfl | rfl <;> rfl
  · rw [List.mem_append, not_or]
    constructor
    · intro hmem
      have hblank := hblanks _ hmem
      simp at hblank
    · rcases hcomment with rfl | ⟨text, rfl, htext⟩
      · simp
      · exact List.not_mem_cons_of_ne_of_not_mem (by decide) htext

/-- A semicolon is inserted next exactly if one is due and the line ends. -/
theorem isSynthetic_next_iff (lexer : Lexer) :
    lexer.next.1.isSynthetic = true ↔ lexer.pending = true ∧ ClosesLine lexer.rest := by
  constructor
  · intro hsynthetic
    have hyields := lexer.yields_next
    generalize lexer.next.1 = token at hsynthetic hyields
    generalize lexer.next.2 = after at hyields
    cases hyields with
    | @atEnd gap pos pending hgap hline =>
        cases pending with
        | false => contradiction
        | true =>
            have hcloses := hgap.closesLine (hline rfl) (by simp [EndsLine])
            rw [List.append_nil] at hcloses
            exact ⟨rfl, hcloses⟩
    | lineEnd hgap hline => exact ⟨rfl, hgap.closesLine hline (by simp [EndsLine])⟩
    | lexeme _ _ _ hspells =>
        rw [hspells.isSynthetic_token] at hsynthetic
        contradiction
  · rcases lexer with ⟨rest, pos, pending⟩
    rintro ⟨hpending, hcloses⟩
    obtain rfl : pending = true := hpending
    obtain ⟨gap, tail, hrest, hgap, hline, htail⟩ := hcloses.exists_gap
    obtain rfl : rest = gap ++ tail := hrest
    cases tail with
    | nil =>
        rw [List.append_nil, (Yields.atEnd hgap fun _ => hline).next_eq]
        rfl
    | cons c tail =>
        obtain rfl : c = '\n' := htail c rfl
        rw [(Yields.lineEnd hgap hline).next_eq]
        rfl

theorem pending_next (lexer : Lexer) : lexer.next.2.pending = lexer.next.1.kind.endsStatement := by
  obtain ⟨gap, text, htakes⟩ := lexer.exists_takes_next
  exact htakes.pending

theorem isSynthetic_next_eq_false {lexer : Lexer} (hpending : lexer.pending = false) :
    lexer.next.1.isSynthetic = false := by
  rw [Bool.eq_false_iff]
  intro hsynthetic
  have hdue := (lexer.isSynthetic_next_iff.mp hsynthetic).1
  rw [hpending] at hdue
  contradiction

/-! ## Writing them -/

theorem measure_next_lt {lexer : Lexer} (hnext : lexer.next.1.kind ≠ .eof) :
    2 * lexer.next.2.rest.length + lexer.next.2.pending.toNat <
      2 * lexer.rest.length + lexer.pending.toNat := by
  have hle := lexer.next.2.pending.toNat_le
  rcases next_shorter hnext with hshorter | ⟨hpending, hrest, hcalm⟩
  · omega
  · rw [hpending, hrest, hcalm]
    simp

/-- The semicolon to write in front of what the lexer reads next, if one is to be inserted there. -/
def mark (lexer : Lexer) : List Char :=
  if lexer.next.1.isSynthetic then [';'] else []

/-- What is left of a script, with a semicolon right after each token that an inserted one
follows. -/
def spelledOut (lexer : Lexer) : List Char :=
  if _ : lexer.next.1.kind = .eof then lexer.rest
  else
    lexer.rest.take (lexer.rest.length - lexer.next.2.rest.length) ++
      (lexer.next.2.mark ++ lexer.next.2.spelledOut)
termination_by 2 * lexer.rest.length + lexer.pending.toNat
decreasing_by exact measure_next_lt ‹_›

theorem mark_of_isSynthetic {lexer : Lexer} (hnext : lexer.next.1.isSynthetic = true) :
    lexer.mark = [';'] :=
  if_pos hnext

theorem mark_of_written {lexer : Lexer} (hnext : lexer.next.1.isSynthetic = false) :
    lexer.mark = [] := by
  rw [mark, hnext]
  rfl

theorem spelledOut_of_eof {lexer : Lexer} (heof : lexer.next.1.kind = .eof) :
    lexer.spelledOut = lexer.rest := by
  rw [spelledOut, dif_pos heof]

theorem spelledOut_of_ne_eof {lexer after : Lexer} {token : Token} {taken : List Char}
    (hnext : lexer.next = (token, after)) (hne : token.kind ≠ .eof)
    (htaken : lexer.rest = taken ++ after.rest) :
    lexer.spelledOut = taken ++ (after.mark ++ after.spelledOut) := by
  have hlength : lexer.rest.length - after.rest.length = taken.length := by
    rw [htaken, List.length_append, Nat.add_sub_cancel]
  rw [spelledOut, hnext, dif_neg hne, hlength, htaken, List.take_left]

/-- Writing semicolons does not change the next character. -/
theorem head?_spelledOut (lexer : Lexer) : lexer.spelledOut.head? = lexer.rest.head? := by
  by_cases heof : lexer.next.1.kind = .eof
  · rw [spelledOut_of_eof heof]
  obtain ⟨gap, text, htakes⟩ := lexer.exists_takes_next
  have htaken : lexer.rest = gap ++ text ++ lexer.next.2.rest := by
    rw [htakes.rest, List.append_assoc]
  have hout : lexer.spelledOut = gap ++ text ++ (lexer.next.2.mark ++ lexer.next.2.spelledOut) :=
    spelledOut_of_ne_eof rfl heof htaken
  rw [hout, htaken]
  rcases next_shorter heof with hshorter | ⟨_, hrest, hcalm⟩
  · have hne : gap ++ text ≠ [] := by
      intro hnil
      rw [hnil, List.nil_append] at htaken
      rw [htaken] at hshorter
      exact Nat.lt_irrefl _ hshorter
    rw [List.head?_append_of_ne_nil _ hne, List.head?_append_of_ne_nil _ hne]
  · -- The semicolon at the end of the script, behind which nothing is left.
    have hafter : lexer.next.2.next.1.kind = .eof := kind_next_of_nil hrest hcalm
    rw [mark_of_written (isSynthetic_next_eq_false hcalm), spelledOut_of_eof hafter]
    rfl

/-! ## Reading what is written -/

/-- A lexer of a script, and one of the script with its semicolons written out. The second may have
to pass a line end that the first has already taken for a semicolon. -/
inductive SpelledOut : Lexer → Lexer → Prop
  | inStep {lexer written : Lexer} {front : List Char}
      (hrest : written.rest = front ++ lexer.spelledOut) (hfront : Gap front lexer.spelledOut)
      (hline : written.pending = true → '\n' ∉ front) (hpending : written.pending = lexer.pending)
      (hnext : lexer.next.1.isSynthetic = false) : SpelledOut lexer written
  | atMark {lexer written : Lexer} (hrest : written.rest = ';' :: lexer.spelledOut)
      (hnext : lexer.next.1.isSynthetic = true) : SpelledOut lexer written

theorem SpelledOut.of_mark {lexer written : Lexer}
    (hrest : written.rest = lexer.mark ++ lexer.spelledOut)
    (hpending : written.pending = lexer.pending) : SpelledOut lexer written := by
  cases hnext : lexer.next.1.isSynthetic with
  | true =>
      rw [mark_of_isSynthetic hnext] at hrest
      exact .atMark hrest hnext
  | false =>
      rw [mark_of_written hnext] at hrest
      exact .inStep hrest .nil (by simp) hpending hnext

/-- A lexeme stays one if a semicolon is written after it, and elsewhere the next character is the
same as before. -/
theorem spells_mark {lexeme : Lexeme} {after : Lexer} {pos : Pos}
    (hspells : Lexeme.Spells lexeme.kind lexeme.text after.rest.head?)
    (hpending : after.pending = (lexeme.token pos).kind.endsStatement) :
    Lexeme.Spells lexeme.kind lexeme.text (after.mark ++ after.spelledOut).head? := by
  cases hnext : after.next.1.isSynthetic with
  | false =>
      rw [mark_of_written hnext, List.nil_append, head?_spelledOut]
      exact hspells
  | true =>
      have hdue := (after.isSynthetic_next_iff.mp hnext).1
      rw [mark_of_isSynthetic hnext]
      rw [hpending] at hdue
      rcases lexeme with ⟨kind, text, rest⟩
      cases kind with
      | error e => contradiction
      | ok kind =>
          apply Lexeme.Spells.of_separates _ hspells
          rintro c ⟨⟩
          decide

theorem exists_yields_semicolon {lexer : Lexer} {rest : List Char}
    (hrest : lexer.rest = ';' :: rest) :
    ∃ pos after, Yields lexer ⟨.semicolon, ";", pos⟩ after ∧ after.rest = rest ∧
      after.pending = false := by
  have hstart : ∀ c ∈ [';'].head?, StartsToken c := by
    rintro c ⟨⟩
    exact ⟨rfl, by decide⟩
  exact @exists_yields_lexeme lexer [] rest ⟨.ok .semicolon, [';'], rest⟩ hrest .nil (by simp)
    hstart (.single rfl)

/-- The next token has the kind of `token` and is not inserted, and those after it are the ones that
`after` reads, with semicolons written out. -/
def Writes (written : Lexer) (token : Token) (after : Lexer) : Prop :=
  ∃ token' after', Yields written token' after' ∧ token'.kind = token.kind ∧
    token'.isSynthetic = false ∧ (token.kind ≠ .eof → SpelledOut after after')

section Step

variable {lexer after written : Lexer} {token : Token} (hyields : Yields lexer token after)

include hyields

/-- One token of the script, and the one that is read for it where semicolons are written out. -/
theorem Yields.writes_inStep {front : List Char} (hrest : written.rest = front ++ lexer.spelledOut)
    (hfront : Gap front lexer.spelledOut) (hline : written.pending = true → '\n' ∉ front)
    (hpending : written.pending = lexer.pending) (hwritten : token.isSynthetic = false) :
    Writes written token after := by
  have hnext := hyields.next_eq
  cases hyields with
  | @atEnd gap pos pending hgap hquiet =>
      cases pending with
      | true => contradiction
      | false =>
          have heof : (Lexer.mk gap pos false).next.1.kind = .eof := by
            rw [hnext]
            rfl
          rw [spelledOut_of_eof heof] at hfront hrest
          have hall : Gap (front ++ gap) [] := by
            apply Gap.append _ hgap
            rw [List.append_nil]
            exact hfront
          rcases written with ⟨rest, pos', pending⟩
          obtain rfl : rest = front ++ gap := hrest
          obtain rfl : pending = false := hpending
          exact ⟨_, _, .atEnd hall (by simp), rfl, rfl, fun hne => absurd rfl hne⟩
  | lineEnd => contradiction
  | @lexeme gap lexeme pos pending hgap hquiet hstart hspells =>
      have hkind := lexeme.kind_token (pos.afterAll gap)
      have hne := hspells.kind_token_ne_eof (pos.afterAll gap)
      have htaken := (List.append_assoc gap lexeme.text lexeme.rest).symm
      have hout := spelledOut_of_ne_eof hnext hne htaken
      rw [List.append_assoc] at hout
      generalize hafter : Lexer.mk lexeme.rest _ _ = after at hout ⊢
      have hmark : Lexeme.Spells lexeme.kind lexeme.text
          (after.mark ++ after.spelledOut).head? := by
        subst hafter
        exact spells_mark hspells rfl
      have hgap' : Gap gap (lexeme.text ++ (after.mark ++ after.spelledOut)) := by
        apply hgap.of_head?_eq
        rw [List.head?_append_of_ne_nil _ hspells.ne_nil,
          List.head?_append_of_ne_nil _ hspells.ne_nil]
      have hquiet' : written.pending = true → '\n' ∉ front ++ gap := by
        intro hdue
        rw [List.mem_append, not_or]
        exact ⟨hline hdue, hquiet (hpending.symm.trans hdue)⟩
      rw [hout] at hfront hrest
      rw [← List.append_assoc] at hrest
      obtain ⟨pos', after', hyields', hrest', hpending'⟩ :=
        exists_yields_lexeme hrest (hfront.append hgap') hquiet' hstart hmark
      refine ⟨_, after', hyields', (hkind _).symm, hspells.isSynthetic_token _, fun _ => ?_⟩
      apply SpelledOut.of_mark hrest'
      rw [hpending', ← hkind, ← hafter]

/-- The semicolon that is written for an inserted one. -/
theorem Yields.writes_atMark (hrest : written.rest = ';' :: lexer.spelledOut)
    (hsynthetic : token.isSynthetic = true) : Writes written token after := by
  have hnext := hyields.next_eq
  obtain ⟨gap, text, htakes⟩ := hyields.exists_takes
  have hkind : token.kind = .semicolon := Token.kind_of_isSynthetic hsynthetic
  have hcalm : after.pending = false := by
    rw [htakes.pending, hkind]
    rfl
  have hout : lexer.spelledOut = gap ++ text ++ after.spelledOut := by
    have htaken : lexer.rest = gap ++ text ++ after.rest := by
      rw [htakes.rest, List.append_assoc]
    rw [spelledOut_of_ne_eof hnext (by simp [hkind]) htaken,
      mark_of_written (isSynthetic_next_eq_false hcalm), List.nil_append]
  -- The line end that the semicolon stands for is a part of the gap now.
  have htext : Gap text after.spelledOut := by
    rcases htakes.synthetic hsynthetic with rfl | ⟨rfl, _⟩
    · exact .blank rfl .nil
    · exact .nil
  have hgap : Gap gap (text ++ after.spelledOut) := by
    apply htakes.isGap.of_head?_eq
    rw [List.head?_append, List.head?_append, head?_spelledOut]
  obtain ⟨pos, after', hyields', hrest', hpending'⟩ := exists_yields_semicolon hrest
  refine ⟨_, after', hyields', hkind.symm, rfl, fun _ => ?_⟩
  rw [hout] at hrest'
  refine .inStep hrest' (hgap.append htext) (fun hdue => ?_) (hpending'.trans hcalm.symm)
    (isSynthetic_next_eq_false hcalm)
  rw [hpending'] at hdue
  contradiction

end Step

theorem SpelledOut.next {lexer written : Lexer} (hspelled : SpelledOut lexer written) :
    written.next.1.kind = lexer.next.1.kind ∧ written.next.1.isSynthetic = false ∧
      (lexer.next.1.kind ≠ .eof → SpelledOut lexer.next.2 written.next.2) := by
  have hwrites : Writes written lexer.next.1 lexer.next.2 := by
    cases hspelled with
    | inStep hrest hfront hline hpending hnext =>
        exact lexer.yields_next.writes_inStep hrest hfront hline hpending hnext
    | atMark hrest hnext => exact lexer.yields_next.writes_atMark hrest hnext
  obtain ⟨_, _, hyields, hstep⟩ := hwrites
  rw [hyields.next_eq]
  exact hstep

theorem Scans.kinds_spelledOut {lexer written : Lexer} {tokens others : List Token}
    (hscans : lexer.Scans tokens) (hothers : written.Scans others)
    (hspelled : SpelledOut lexer written) :
    others.map Token.kind = tokens.map Token.kind ∧
      ∀ token ∈ others, token.isSynthetic = false := by
  induction hscans generalizing written others with
  | eof hnext =>
      rcases hspelled.next with ⟨hkind, hwritten, _⟩
      cases hothers with
      | eof _ => simp [hkind, hwritten]
      | cons hne _ => exact absurd (hkind.trans hnext) hne
  | cons hnext _ ih =>
      rcases hspelled.next with ⟨hkind, hwritten, hafter⟩
      cases hothers with
      | eof heof => exact absurd (hkind.symm.trans heof) hnext
      | cons _ hrest =>
          rcases ih hrest (hafter hnext) with ⟨hkinds, hall⟩
          refine ⟨?_, List.forall_mem_cons.mpr ⟨hwritten, hall⟩⟩
          rw [List.map_cons, List.map_cons, hkind, hkinds]

theorem spelledOut_ofString (source : String) :
    SpelledOut (ofString source) (ofString (.ofList (ofString source).spelledOut)) := by
  have hrest : (String.ofList (ofString source).spelledOut).toList =
      [] ++ (ofString source).spelledOut := String.toList_ofList
  exact .inStep hrest .nil (by simp) rfl (isSynthetic_next_eq_false rfl)

end Lexer

theorem TokenKind.endsStatement_iff (kind : TokenKind) :
    kind.endsStatement = true ↔
      kind ∈ [identifier, number, string, rightParen, kwTrue, kwFalse, kwNil] := by
  cases kind <;> decide

/-- A semicolon is inserted exactly where a token that may end a statement is the last one of its
line. Written there, right after the token, it is read as a token of the same kind, and nothing is
inserted any more. -/
theorem inserted_semicolons (source : String) :
    (Lexer.nthToken source 0).isSynthetic = false ∧
      (∀ n, (Lexer.nthToken source (n + 1)).isSynthetic = true ↔
        (Lexer.nthToken source n).kind ∈
            [.identifier, .number, .string, .rightParen, .kwTrue, .kwFalse, .kwNil] ∧
          Lexer.ClosesLine ((Lexer.ofString source).advance (n + 1)).rest) ∧
      (Token.ofSource (.ofList (Lexer.ofString source).spelledOut)).toList.map Token.kind =
        (Token.ofSource source).toList.map Token.kind ∧
      ∀ token ∈ Token.ofSource (.ofList (Lexer.ofString source).spelledOut),
        token.isSynthetic = false := by
  refine ⟨Lexer.isSynthetic_next_eq_false rfl, fun n => ?_, ?_⟩
  · rw [Lexer.nthToken, Lexer.isSynthetic_next_iff, Lexer.advance_succ, Lexer.pending_next,
      TokenKind.endsStatement_iff]
    rfl
  · obtain ⟨hkinds, hwritten⟩ := (Token.scans_ofSource source).kinds_spelledOut
      (Token.scans_ofSource _) (Lexer.spelledOut_ofString source)
    exact ⟨hkinds, fun token hmem => hwritten token (Array.mem_toList_iff.mpr hmem)⟩

end Scriptlet
