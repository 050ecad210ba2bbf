import Mathlib.Data.List.Forall2
import Scriptlet.Proofs.Lexing

/-! # The tokens of joined scripts

Where two scripts are joined by a line end, the lexer hands out the tokens of the first and then
those of the second, apart from their positions. No lexeme and no comment gets past a line end, and
a line end counts as a semicolon where the end of a script does.
-/

namespace Scriptlet

/-- What may follow a script that is a part of a longer one: nothing, or a line end before all
else. -/
def Lexer.EndsLine (tail : List Char) : Prop :=
  ∀ c ∈ tail.head?, c = '\n'

/-! ## Lexemes -/

namespace Lexeme

open Lexer (EndsLine)

/-- The same lexeme with more text after what follows it. -/
def extend (lexeme : Lexeme) (tail : List Char) : Lexeme :=
  ⟨lexeme.kind, lexeme.text, lexeme.rest ++ tail⟩

section Tail

variable {tail : List Char} (htail : EndsLine tail)

include htail

theorem takeWhile_eq_nil {p : Char → Bool} (hp : p '\n' = false) : tail.takeWhile p = [] := by
  cases tail with
  | nil => rfl
  | cons c cs =>
      obtain rfl : c = '\n' := htail c rfl
      simp [hp]

theorem takeWhile_append_tail {p : Char → Bool} (hp : p '\n' = false) (cs : List Char) :
    (cs ++ tail).takeWhile p = cs.takeWhile p := by
  rw [List.takeWhile_append, takeWhile_eq_nil htail hp, List.append_nil]
  split
  next hall => exact ((List.takeWhile_prefix p).eq_of_length hall).symm
  next => rfl

theorem dropWhile_append_tail {p : Char → Bool} (hp : p '\n' = false) (cs : List Char) :
    (cs ++ tail).dropWhile p = cs.dropWhile p ++ tail := by
  have hsplit := List.takeWhile_append_dropWhile (p := p) (l := cs ++ tail)
  rw [takeWhile_append_tail htail hp] at hsplit
  refine List.append_cancel_left (hsplit.trans ?_)
  rw [← List.append_assoc, List.takeWhile_append_dropWhile]

theorem any_head?_append_tail {p : Char → Bool} (hp : p '\n' = false) (cs : List Char) :
    (cs ++ tail).head?.any p = cs.head?.any p := by
  cases cs with
  | cons c cs => rfl
  | nil =>
      cases tail with
      | nil => rfl
      | cons c tail =>
          obtain rfl : c = '\n' := htail c rfl
          exact hp

/-- A character other than a line end comes next with the tail exactly if it does without. -/
theorem append_tail_eq_cons {c : Char} (hc : c ≠ '\n') {cs rest : List Char}
    (heq : cs ++ tail = c :: rest) : ∃ rest', cs = c :: rest' ∧ rest = rest' ++ tail := by
  cases cs with
  | nil =>
      rw [List.nil_append] at heq
      exact absurd (htail c (heq ▸ rfl)) hc
  | cons d cs =>
      obtain ⟨rfl, rfl⟩ := List.cons.inj heq
      exact ⟨cs, rfl, rfl⟩

theorem numeral_append_tail (text rest : List Char) :
    numeral text (rest ++ tail) =
      (numeral text rest).extend tail := by
  unfold numeral
  rw [any_head?_append_tail htail (by decide)]
  split
  · rw [takeWhile_append_tail htail (by decide), dropWhile_append_tail htail (by decide)]
    rfl
  · rfl

theorem fraction_append_tail (text rest : List Char) :
    fraction text (rest ++ tail) =
      (fraction text rest).extend tail := by
  unfold fraction
  rw [takeWhile_append_tail htail (by decide), dropWhile_append_tail htail (by decide),
    numeral_append_tail htail]

theorem number_append_tail (c : Char) (cs : List Char) :
    number c (cs ++ tail) = (number c cs).extend tail := by
  unfold number
  rw [takeWhile_append_tail htail (by decide), dropWhile_append_tail htail (by decide)]
  dsimp only
  split
  next rest hrest =>
    obtain ⟨more, hmore, rfl⟩ := append_tail_eq_cons htail (by decide) hrest
    rw [hmore]
    exact fraction_append_tail htail _ _
  next hpoint =>
    split
    next rest hrest => exact absurd (congrArg (· ++ tail) hrest) (hpoint _)
    next => exact numeral_append_tail htail _ _

theorem word_append_tail (c : Char) (cs : List Char) :
    word c (cs ++ tail) = (word c cs).extend tail := by
  unfold word
  rw [takeWhile_append_tail htail (by decide), dropWhile_append_tail htail (by decide)]
  rfl

theorem quoted_append_tail (cs : List Char) :
    quoted (cs ++ tail) = (quoted cs).extend tail := by
  unfold quoted
  rw [takeWhile_append_tail htail (by decide), dropWhile_append_tail htail (by decide)]
  dsimp only
  split
  next rest hrest =>
    obtain ⟨more, hmore, rfl⟩ := append_tail_eq_cons htail (by decide) hrest
    rw [hmore]
    rfl
  next hclose =>
    split
    next rest hrest => exact absurd (congrArg (· ++ tail) hrest) (hclose _)
    next => rfl

theorem operator_append_tail (c : Char) (short long : TokenKind) (cs : List Char) :
    operator c short long (cs ++ tail) =
      (operator c short long cs).extend tail := by
  unfold operator
  split
  next rest hrest =>
    obtain ⟨more, rfl, rfl⟩ := append_tail_eq_cons htail (by decide) hrest
    rfl
  next hequal =>
    split
    next => exact absurd rfl (hequal _)
    next => rfl

theorem point_append_tail (cs : List Char) :
    point (cs ++ tail) = (point cs).extend tail := by
  unfold point
  rw [any_head?_append_tail htail (by decide)]
  split
  · exact fraction_append_tail htail ['.'] cs
  · rfl

/-- A lexeme does not depend on what follows the line. -/
theorem read_append_tail (c : Char) (cs : List Char) :
    read c (cs ++ tail) = (read c cs).extend tail := by
  unfold read
  split
  · rfl
  · exact operator_append_tail htail ..
  · split
    · exact point_append_tail htail cs
    · split
      · exact quoted_append_tail htail cs
      · split
        · exact number_append_tail htail c cs
        · split
          · exact word_append_tail htail c cs
          · rfl

end Tail

end Lexeme

/-- Tokens that say the same, perhaps at different positions. A semicolon says the same however it
came about. -/
structure Token.Alike (token other : Token) : Prop where
  kind : other.kind = token.kind
  lexeme : token.kind ≠ .semicolon → other.lexeme = token.lexeme

theorem Lexeme.token_extend_alike (lexeme : Lexeme) (tail : List Char) (pos pos' : Pos) :
    Token.Alike (lexeme.token pos) ((lexeme.extend tail).token pos') := by
  unfold token extend
  cases lexeme.kind <;> exact ⟨rfl, fun _ => rfl⟩

namespace Lexer

/-! ## Blanks and comments -/

section Skip

variable {pending comment : Bool} {pos : Pos} {cs tail : List Char}

/-- If something is left to read, skipping stops in front of it whatever follows. -/
theorem exists_skip_of_cons {c : Char} {rest : List Char}
    (hskip : (skip pending comment pos cs).2 = c :: rest) (tail : List Char) (pos' : Pos) :
    ∃ after, skip pending comment pos' (cs ++ tail) = (after, c :: (rest ++ tail)) := by
  induction cs generalizing comment pos pos' with
  | nil => contradiction
  | cons d cs ih =>
      rw [List.cons_append]
      rcases skip_cons_cases pending comment d with hstop | ⟨comment', hpass⟩
      · rw [hstop] at hskip ⊢
        exact ⟨pos', congrArg (fun l => (pos', l ++ tail)) hskip⟩
      · rw [hpass] at hskip ⊢
        exact ih hskip _

/-- If nothing is left to read, skipping gets to the line end that follows, and past it unless it
may end a statement. -/
theorem exists_skip_of_nil (hskip : (skip pending comment pos cs).2 = []) (htail : EndsLine tail)
    (pos' : Pos) :
    ∃ after, skip pending comment pos' (cs ++ tail) =
      if pending then (after, tail) else skip false false after tail.tail := by
  induction cs generalizing comment pos pos' with
  | nil =>
      cases tail with
      | nil => exact ⟨pos', by cases pending <;> rfl⟩
      | cons c more =>
          obtain rfl : c = '\n' := htail c rfl
          cases pending with
          | true => exact ⟨pos', rfl⟩
          | false => exact ⟨pos'.after '\n', rfl⟩
  | cons d cs ih =>
      rw [List.cons_append]
      rcases skip_cons_cases pending comment d with hstop | ⟨comment', hpass⟩
      · rw [hstop] at hskip
        contradiction
      · rw [hpass] at hskip ⊢
        exact ih hskip _

end Skip

/-! ## Tokens -/

section Tail

variable {lexer longer : Lexer} {tail : List Char} (htail : EndsLine tail)
  (hrest : longer.rest = lexer.rest ++ tail) (hpending : longer.pending = lexer.pending)

include htail hrest hpending

/-- A token of a script is also handed out if the script goes on after its last line. At the end of
the script the longer one goes on after the line end. -/
theorem next_append_tail :
    (lexer.next.1.kind ≠ .eof ∧ Token.Alike lexer.next.1 longer.next.1 ∧
        longer.next.2.rest = lexer.next.2.rest ++ tail ∧
        longer.next.2.pending = lexer.next.2.pending) ∨
      (lexer.next.1.kind ≠ .eof ∧ Token.Alike lexer.next.1 longer.next.1 ∧
        lexer.next.2.next.1.kind = .eof ∧ ∃ pos, longer.next.2 = ⟨tail.tail, pos, false⟩) ∨
      (lexer.next.1.kind = .eof ∧ ∃ pos, longer.next = next ⟨tail.tail, pos, false⟩) := by
  rcases hskip : skip lexer.pending false lexer.pos lexer.rest with ⟨pos, _ | ⟨c, cs⟩⟩
  · obtain ⟨after, hafter⟩ := exists_skip_of_nil (congrArg Prod.snd hskip) htail longer.pos
    rw [← hpending, ← hrest] at hafter
    right
    -- The script ends here. A semicolon that is still due is the line end in the longer script;
    -- without one the line end is a blank, and what follows it is read next.
    cases hlexer : lexer.pending with
    | true =>
        rw [if_pos (hpending.trans hlexer)] at hafter
        rw [next_of_skip_nil hskip, hlexer]
        left
        cases tail with
        | nil =>
            rw [next_of_skip_nil hafter, hpending, hlexer]
            exact ⟨by simp [emit], ⟨rfl, fun _ => rfl⟩, rfl, after, rfl⟩
        | cons c more =>
            obtain rfl : c = '\n' := htail c rfl
            rw [next_of_skip_newline hafter]
            exact ⟨by simp [emit], ⟨rfl, fun hkind => absurd rfl hkind⟩, rfl, _, rfl⟩
    | false =>
        rw [if_neg (by simp [hpending, hlexer])] at hafter
        rw [next_of_skip_nil hskip, hlexer]
        refine .inr ⟨rfl, after, ?_⟩
        unfold next
        rw [hafter, hpending, hlexer]
  · obtain ⟨after, hafter⟩ := exists_skip_of_cons (congrArg Prod.snd hskip) tail longer.pos
    rw [← hpending, ← hrest] at hafter
    left
    by_cases hc : c = '\n'
    · subst hc
      rw [next_of_skip_newline hskip, next_of_skip_newline hafter]
      exact ⟨by simp [emit], ⟨rfl, fun _ => rfl⟩, rfl, rfl⟩
    · have halike := (Lexeme.read c cs).token_extend_alike tail pos after
      have hkind := Lexeme.kind_token_read_ne_eof c cs pos
      rw [next_of_skip_cons hc hskip, next_of_skip_cons hc hafter, Lexeme.read_append_tail htail]
      exact ⟨hkind, halike, rfl, congrArg TokenKind.endsStatement halike.kind⟩

/-- The tokens of a script, without the last one, come first among those of a longer script. -/
theorem Scans.append_tail {tokens all : List Token} (hscans : lexer.Scans tokens)
    (hall : longer.Scans all) :
    ∃ first second pos, all = first ++ second ∧ List.Forall₂ Token.Alike tokens.dropLast first ∧
      Scans ⟨tail.tail, pos, false⟩ second := by
  induction hscans generalizing longer all with
  | eof hnext =>
      rcases next_append_tail htail hrest hpending with ⟨hne, _⟩ | ⟨hne, _⟩ | ⟨_, pos, hlonger⟩
      · contradiction
      · contradiction
      · exact ⟨[], all, pos, rfl, .nil, hall.of_next_eq hlonger⟩
  | cons hnext hscans ih =>
      have hlonger : longer.next.1.kind ≠ .eof → ∃ others, all = longer.next.1 :: others ∧
          longer.next.2.Scans others := by
        intro hne
        cases hall with
        | eof heof => contradiction
        | cons _ hothers => exact ⟨_, rfl, hothers⟩
      rcases next_append_tail htail hrest hpending with
        ⟨_, halike, hrest', hpending'⟩ | ⟨_, halike, heof, pos, hsecond⟩ | ⟨heof, _⟩
      · obtain ⟨others, rfl, hothers⟩ := hlonger (halike.kind ▸ hnext)
        obtain ⟨first, second, pos, rfl, hfirst, hsecond⟩ := ih hrest' hpending' hothers
        refine ⟨_ :: first, second, pos, rfl, ?_, hsecond⟩
        rw [List.dropLast_cons_of_ne_nil hscans.ne_nil]
        exact .cons halike hfirst
      · -- The semicolon at the end of the script, after which only `eof` is left of it.
        obtain ⟨others, rfl, hothers⟩ := hlonger (halike.kind ▸ hnext)
        refine ⟨[longer.next.1], others, pos, rfl, ?_, hsecond ▸ hothers⟩
        cases hscans with
        | eof => exact .cons halike .nil
        | cons hne => contradiction
      · contradiction

end Tail

/-! ## Joined scripts -/

/-- Joined by line ends, a script is followed by a line end and the others. -/
theorem exists_intercalate_cons (source : String) (sources : List String) :
    ∃ tail, ("\n".intercalate (source :: sources)).toList = source.toList ++ tail ∧
      EndsLine tail ∧ tail.tail = ("\n".intercalate sources).toList := by
  cases sources with
  | nil => exact ⟨[], by simp, by simp [EndsLine], by simp⟩
  | cons next sources =>
      refine ⟨'\n' :: ("\n".intercalate (next :: sources)).toList, ?_, by simp [EndsLine], rfl⟩
      rw [String.intercalate_cons_cons]
      simp

/-- The tokens of scripts that are joined by line ends are those of the scripts one after the other,
up to a common last one. -/
theorem Scans.exists_of_intercalate {sources : List String} {pos : Pos} {tokens : List Token}
    (hscans : Scans ⟨("\n".intercalate sources).toList, pos, false⟩ tokens) :
    ∃ parts stop, tokens = parts.flatten ++ [stop] ∧ stop.kind = .eof ∧
      List.Forall₂ (fun source => List.Forall₂ Token.Alike (Token.ofSource source).toList.dropLast)
        sources parts := by
  induction sources generalizing pos tokens with
  | nil =>
      cases hscans with
      | eof => exact ⟨[], _, rfl, rfl, .nil⟩
      | cons hne => exact absurd rfl hne
  | cons source sources ih =>
      obtain ⟨tail, htext, htail, hothers⟩ := exists_intercalate_cons source sources
      have hpending : Lexer.pending ⟨("\n".intercalate (source :: sources)).toList, pos, false⟩ =
          (ofString source).pending := rfl
      obtain ⟨first, second, after, rfl, hfirst, hsecond⟩ :=
        (Token.scans_ofSource source).append_tail htail htext hpending hscans
      rw [hothers] at hsecond
      obtain ⟨parts, stop, rfl, hstop, hparts⟩ := ih hsecond
      exact ⟨first :: parts, stop, by simp, hstop, .cons hfirst hparts⟩

end Lexer

end Scriptlet
