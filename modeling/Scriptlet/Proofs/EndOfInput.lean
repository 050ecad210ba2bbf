import Mathlib.Data.List.Range
import Scriptlet.Proofs.Scanning

/-! # The end of a script

Every token takes a character of the script, except for the semicolon that may be inserted at its
end. So a lexer gets to the end after at most one token more than there are characters. From then on
it hands out the same `eof` for ever, whoever asks, while a stream of tokens hands it out once.
-/

namespace Scriptlet

namespace Lexer

section Next

variable {lexer : Lexer}

/-! ## The last tokens -/

/-- What a lexer at the end of a script looks like. -/
theorem exists_next_of_eof (heof : lexer.next.1.kind = .eof) :
    ∃ pos, lexer.next = (⟨.eof, "", pos⟩, ⟨[], pos, false⟩) := by
  obtain ⟨gap, text, htakes⟩ := lexer.exists_takes_next
  obtain ⟨rfl, hrest⟩ := htakes.eof heof
  have hlexeme := htakes.lexeme (by simp [heof])
  have hstop := htakes.stop
  have hpending := htakes.pending
  rcases hnext : lexer.next with ⟨⟨kind, lexeme, pos⟩, ⟨rest, after, pending⟩⟩
  rw [hnext] at heof hrest hlexeme hstop hpending
  obtain rfl : kind = .eof := heof
  obtain rfl : rest = [] := hrest
  obtain rfl : after = pos := hstop
  obtain rfl : pending = false := hpending
  obtain rfl : lexeme = "" := hlexeme
  exact ⟨after, rfl⟩

/-- The end of a script stays where it is. -/
theorem next_next_of_eof (heof : lexer.next.1.kind = .eof) : lexer.next.2.next = lexer.next := by
  obtain ⟨pos, hnext⟩ := exists_next_of_eof heof
  rw [hnext]
  rfl

/-- A token that takes no character is a semicolon, inserted where nothing is left to read. -/
theorem next_of_not_shorter (hne : lexer.next.1.kind ≠ .eof)
    (htakes : ¬lexer.next.2.rest.length < lexer.rest.length) :
    lexer.rest = [] ∧ lexer.next = (⟨.semicolon, "", lexer.pos⟩, ⟨[], lexer.pos, false⟩) := by
  rcases next_shorter hne with hshorter | ⟨hpending, hrest, _⟩
  · exact absurd hshorter htakes
  · have hnil : lexer.rest = [] := by
      rw [hrest, List.length_nil, Nat.pos_iff_ne_zero, ne_eq, not_not, List.length_eq_zero_iff]
        at htakes
      exact htakes
    rcases lexer with ⟨rest, pos, pending⟩
    obtain rfl : rest = [] := hnil
    obtain rfl : pending = true := hpending
    exact ⟨rfl, rfl⟩

/-! ## How many tokens there are -/

/-- How many tokens may come before `eof`: one for each character, and a semicolon at the end. -/
def outstanding (lexer : Lexer) : Nat :=
  if lexer.rest = [] ∧ lexer.pending = false then 0 else lexer.rest.length + 1

theorem outstanding_le (lexer : Lexer) : lexer.outstanding ≤ lexer.rest.length + 1 := by
  unfold outstanding
  split <;> omega

theorem outstanding_next_lt (hne : lexer.next.1.kind ≠ .eof) :
    lexer.next.2.outstanding < lexer.outstanding := by
  by_cases htakes : lexer.next.2.rest.length < lexer.rest.length
  · have hrest : lexer.rest ≠ [] := by
      rintro hnil
      simp [hnil] at htakes
    calc lexer.next.2.outstanding ≤ lexer.next.2.rest.length + 1 := outstanding_le _
      _ < lexer.rest.length + 1 := Nat.succ_lt_succ htakes
      _ = lexer.outstanding := by rw [outstanding, if_neg (fun h => hrest h.1)]
  · obtain ⟨hrest, hnext⟩ := next_of_not_shorter hne htakes
    have hpending : lexer.pending = true := by
      by_contra hcalm
      exact hne (kind_next_of_nil hrest (by simpa using hcalm))
    simp [outstanding, hnext, hrest, hpending]

end Next

variable {lexer : Lexer} {last : Nat}

/-- Tokens before `eof` use up what is outstanding. -/
theorem outstanding_advance_le {n : Nat}
    (hne : ∀ k < n, (lexer.advance k).next.1.kind ≠ .eof) :
    (lexer.advance n).outstanding + n ≤ lexer.outstanding := by
  induction n with
  | zero => exact Nat.le_refl _
  | succ n ih =>
      have hbefore := ih fun k hk => hne k (Nat.lt_succ_of_lt hk)
      have hlt := outstanding_next_lt (hne n (Nat.lt_succ_self n))
      rw [advance_succ]
      omega

theorem next_advance_of_eof (heof : (lexer.advance last).next.1.kind = .eof) {n : Nat}
    (hle : last ≤ n) : (lexer.advance n).next = (lexer.advance last).next := by
  induction n, hle using Nat.le_induction with
  | base => rfl
  | succ n _ ih =>
      rw [advance_succ, next_next_of_eof (by rw [ih]; exact heof), ih]

/-! ## Collecting them -/

/-- The tokens that a lexer hands out first. -/
def firstTokens (lexer : Lexer) (n : Nat) : List Token :=
  (List.range n).map fun k => (lexer.advance k).next.1

theorem firstTokens_succ (lexer : Lexer) (n : Nat) :
    lexer.firstTokens (n + 1) = lexer.next.1 :: lexer.next.2.firstTokens n := by
  rw [firstTokens, List.range_succ_eq_map, List.map_cons, List.map_map]
  rfl

theorem firstTokens_concat (lexer : Lexer) (n : Nat) :
    lexer.firstTokens (n + 1) = lexer.firstTokens n ++ [(lexer.advance n).next.1] := by
  rw [firstTokens, List.range_succ, List.map_append]
  rfl

/-- To collect tokens is to ask for them one by one, up to the first `eof`. -/
theorem collect_eq {count : Nat} (hlast : last < count)
    (hne : ∀ k < last, (lexer.advance k).next.1.kind ≠ .eof)
    (heof : (lexer.advance last).next.1.kind = .eof) (acc : Array Token) :
    lexer.collect count acc =
      (acc ++ (lexer.firstTokens (last + 1)).toArray, lexer.advance (last + 1)) := by
  induction count generalizing lexer last acc with
  | zero => exact absurd hlast (Nat.not_lt_zero last)
  | succ count ih =>
      rw [collect]
      cases last with
      | zero =>
          have hfirst : lexer.next.1.kind = .eof := heof
          simp only [hfirst, if_true]
          simp [firstTokens, advance]
      | succ last =>
          have hfirst : lexer.next.1.kind ≠ .eof := hne 0 (Nat.succ_pos last)
          simp only [if_neg hfirst]
          rw [ih (Nat.lt_of_succ_lt_succ hlast) (fun k hk => hne (k + 1) (Nat.succ_lt_succ hk))
            heof, firstTokens_succ lexer (last + 1)]
          simp [advance]

theorem tokenize_eq (hlast : last ≤ lexer.rest.length + 1)
    (hne : ∀ k < last, (lexer.advance k).next.1.kind ≠ .eof)
    (heof : (lexer.advance last).next.1.kind = .eof) :
    lexer.tokenize = ((lexer.firstTokens last).toArray, lexer.advance (last + 1)) := by
  rw [tokenize, remaining, collect_eq (Nat.lt_succ_of_le hlast) hne heof, firstTokens_concat]
  simp

end Lexer

/-! ## Streams -/

namespace TokenStream

/-- The stream after it has been asked `n` times. -/
def advance (stream : TokenStream) (n : Nat) : TokenStream :=
  (fun stream => stream.next?.2)^[n] stream

/-- What a stream of the tokens of a script answers when it is asked for the `n`-th time. -/
def nth? (source : String) (n : Nat) : Option Token :=
  ((ofString source).advance n).next?.1

variable {lexer : Lexer} {last : Nat}

theorem next?_of_ne_eof (hne : lexer.next.1.kind ≠ .eof) :
    next? ⟨lexer, false⟩ = (some lexer.next.1, ⟨lexer.next.2, false⟩) := by
  simp [next?, hne]

theorem next?_of_eof (heof : lexer.next.1.kind = .eof) :
    next? ⟨lexer, false⟩ = (some lexer.next.1, ⟨lexer.next.2, true⟩) := by
  simp [next?, heof]

theorem advance_succ (stream : TokenStream) (n : Nat) :
    stream.advance (n + 1) = (stream.advance n).next?.2 :=
  Function.iterate_succ_apply' _ n stream

theorem advance_of_le (hne : ∀ k < last, (lexer.advance k).next.1.kind ≠ .eof) {n : Nat}
    (hle : n ≤ last) : advance ⟨lexer, false⟩ n = ⟨lexer.advance n, false⟩ := by
  induction n with
  | zero => rfl
  | succ n ih =>
      rw [advance_succ, ih (Nat.le_of_succ_le hle), next?_of_ne_eof (hne n hle), lexer.advance_succ]

theorem advance_of_lt (hne : ∀ k < last, (lexer.advance k).next.1.kind ≠ .eof)
    (heof : (lexer.advance last).next.1.kind = .eof) {n : Nat} (hlt : last < n) :
    advance ⟨lexer, false⟩ n = ⟨lexer.advance (last + 1), true⟩ := by
  induction n, hlt using Nat.le_induction with
  | base =>
      rw [advance_succ, advance_of_le hne (Nat.le_refl last), next?_of_eof heof, lexer.advance_succ]
  | succ n _ ih =>
      rw [advance_succ, ih]
      rfl

/-- A stream hands out the tokens up to `eof`, and then nothing. -/
theorem next?_advance (hne : ∀ k < last, (lexer.advance k).next.1.kind ≠ .eof)
    (heof : (lexer.advance last).next.1.kind = .eof) (n : Nat) :
    (advance ⟨lexer, false⟩ n).next?.1 = (lexer.firstTokens (last + 1))[n]? := by
  rcases Nat.lt_trichotomy n last with hlt | rfl | hgt
  · rw [advance_of_le hne (Nat.le_of_lt hlt), next?_of_ne_eof (hne n hlt), Lexer.firstTokens,
      List.getElem?_map, List.getElem?_range (Nat.lt_succ_of_lt hlt)]
    rfl
  · rw [advance_of_le hne (Nat.le_refl n), next?_of_eof heof, Lexer.firstTokens,
      List.getElem?_map, List.getElem?_range (Nat.lt_succ_self n)]
    rfl
  · rw [advance_of_lt hne heof hgt, Lexer.firstTokens, List.getElem?_map,
      List.getElem?_eq_none (by rw [List.length_range]; exact hgt)]
    rfl

end TokenStream

open Lexer in
/-- A script has its end, and the end is final. There is a number `last` of tokens before the first
`eof`. Each of them takes a character, except that the last one may be a semicolon that is inserted
where nothing is left to read. So there is at most one more than there are characters, and they are
what a new lexer collects. Every token from number `last` on is the same `eof`. A stream hands out
the tokens, then `eof` once, and then nothing any more. -/
theorem lexing_ends (source : String) :
    ∃ last,
      (∀ n, (nthToken source n).kind = .eof ↔ last ≤ n) ∧
      (∀ n, last ≤ n → nthToken source n = nthToken source last) ∧
      (∀ n < last,
        ((ofString source).advance (n + 1)).rest.length <
            ((ofString source).advance n).rest.length ∨
          n + 1 = last ∧ ((ofString source).advance n).rest = [] ∧
            nthToken source n = ⟨.semicolon, "", ((ofString source).advance n).pos⟩) ∧
      (ofString source).tokenize.1.toList = (List.range last).map (nthToken source) ∧
      (ofString source).tokenize.2 = (ofString source).advance (last + 1) ∧
      (ofString source).tokenize.1.size ≤ source.length + 1 ∧
      ∀ n, TokenStream.nth? source n =
        ((ofString source).tokenize.1.toList ++ [nthToken source last])[n]? := by
  obtain ⟨last, hlast⟩ := exists_last source
  have heof : ((ofString source).advance last).next.1.kind = .eof := (hlast last).mpr le_rfl
  have hne : ∀ n < last, ((ofString source).advance n).next.1.kind ≠ .eof := fun n hlt heof =>
    Nat.not_le_of_lt hlt ((hlast n).mp heof)
  have hbound : last ≤ (ofString source).rest.length + 1 := by
    have hused := outstanding_advance_le hne
    have hle := outstanding_le (ofString source)
    omega
  have htokenize := tokenize_eq hbound hne heof
  refine ⟨last, hlast, fun n hle => ?_, fun n hlt => ?_, ?_, ?_, ?_, fun n => ?_⟩
  · exact congrArg Prod.fst (next_advance_of_eof heof hle)
  · rw [advance_succ]
    by_cases htakes : ((ofString source).advance n).next.2.rest.length <
        ((ofString source).advance n).rest.length
    · exact .inl htakes
    · obtain ⟨hrest, hnext⟩ := next_of_not_shorter (hne n hlt) htakes
      have hend : (nthToken source (n + 1)).kind = .eof := by
        rw [nthToken, advance_succ, hnext]
        rfl
      have hle := (hlast (n + 1)).mp hend
      exact .inr ⟨by omega, hrest, congrArg Prod.fst hnext⟩
  · rw [htokenize]
    rfl
  · rw [htokenize]
  · rw [htokenize]
    rw [ofString, String.length_toList] at hbound
    simpa [firstTokens] using hbound
  · rw [htokenize]
    exact (TokenStream.next?_advance hne heof n).trans
      (congrArg (fun tokens => tokens[n]?) (firstTokens_concat _ last))

end Scriptlet
