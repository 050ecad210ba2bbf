import Mathlib.Data.List.TakeWhile
import Mathlib.Tactic.Common
import Scriptlet.Token.Lexeme

/-! # The spelling of lexemes

Which texts are lexemes, and of which kind, without regard to how they are read. Whether a text is
all of a lexeme depends on the character after it, which must not go on with it. Reading finds a
lexeme exactly where one is spelled, so the text and the next character determine it.
-/

namespace Scriptlet.Lexeme

/-- A numeral in front of a character that does not go on with it. One that has no point yet could
go on with a point. -/
inductive IsNumeral : List Char → Option Char → Prop
  | whole {digits : List Char} {next : Option Char} (hdigits : ∀ c ∈ digits, isDigit c = true)
      (hne : digits ≠ []) (hnext : next.any isDigit = false) (hpoint : next ≠ some '.') :
      IsNumeral digits next
  | fraction {whole part : List Char} {next : Option Char}
      (hwhole : ∀ c ∈ whole, isDigit c = true) (hpart : ∀ c ∈ part, isDigit c = true)
      (hne : whole ≠ [] ∨ part ≠ []) (hnext : next.any isDigit = false) :
      IsNumeral (whole ++ '.' :: part) next

theorem IsNumeral.ne_nil {text : List Char} {next : Option Char} (htext : IsNumeral text next) :
    text ≠ [] := by
  cases htext with
  | whole _ hne _ _ => exact hne
  | fraction _ _ _ _ => simp

/-- A character with which no lexeme starts. -/
structure IsUnexpected (c : Char) : Prop where
  single : single? c = none
  withEqual : withEqual? c = none
  point : c ≠ '.'
  quote : c ≠ '"'
  digit : isDigit c = false
  letter : isLetter c = false

/-- `Spells kind text next` if `text` in front of `next` is a lexeme of that kind and is all of
it. -/
inductive Spells : Except LexError TokenKind → List Char → Option Char → Prop
  | single {c : Char} {kind : TokenKind} {next : Option Char} (hc : single? c = some kind) :
      Spells (.ok kind) [c] next
  | short {c : Char} {short long : TokenKind} {next : Option Char}
      (hc : withEqual? c = some (short, long)) (hnext : next ≠ some '=') :
      Spells (.ok short) [c] next
  | long {c : Char} {short long : TokenKind} {next : Option Char}
      (hc : withEqual? c = some (short, long)) : Spells (.ok long) [c, '='] next
  | dot {next : Option Char} (hnext : next.any isDigit = false) : Spells (.ok .dot) ['.'] next
  | number {text : List Char} {next : Option Char} (htext : IsNumeral text next)
      (hnext : next.any isLetter = false) : Spells (.ok .number) text next
  /-- A word that runs into a numeral spoils it. -/
  | malformed {text : List Char} {c : Char} {word : List Char} {next : Option Char}
      (htext : IsNumeral text (some c)) (hc : isLetter c = true)
      (hword : ∀ d ∈ word, isWordChar d = true) (hnext : next.any isWordChar = false) :
      Spells (.error .malformedNumber) (text ++ c :: word) next
  | word {c : Char} {word : List Char} {next : Option Char} (hc : isLetter c = true)
      (hword : ∀ d ∈ word, isWordChar d = true) (hnext : next.any isWordChar = false) :
      Spells (.ok ((TokenKind.ofKeyword? (String.ofList (c :: word))).getD .identifier))
        (c :: word) next
  | string {body : List Char} {next : Option Char} (hbody : ∀ c ∈ body, isQuotable c = true) :
      Spells (.ok .string) ('"' :: body ++ ['"']) next
  /-- A string that its line does not end is no string. -/
  | unterminated {body : List Char} {next : Option Char} (hbody : ∀ c ∈ body, isQuotable c = true)
      (hnext : next = none ∨ next = some '\n') :
      Spells (.error .unterminatedString) ('"' :: body) next
  | unexpected {c : Char} {next : Option Char} (hc : IsUnexpected c) :
      Spells (.error .unexpectedCharacter) [c] next

theorem Spells.ne_nil {kind : Except LexError TokenKind} {text : List Char} {next : Option Char}
    (htext : Spells kind text next) : text ≠ [] := by
  cases htext with
  | number htext => exact htext.ne_nil
  | _ => simp

theorem getD_ofKeyword?_mem (word : String) :
    (TokenKind.ofKeyword? word).getD .identifier ∈ .identifier :: TokenKind.keywords := by
  cases hword : TokenKind.ofKeyword? word with
  | none => exact List.mem_cons_self
  | some kind => exact List.mem_cons_of_mem _ (List.mem_of_find?_eq_some hword)

theorem ne_semicolon_of_withEqual? {c : Char} {short long : TokenKind}
    (hc : withEqual? c = some (short, long)) : short ≠ .semicolon ∧ long ≠ .semicolon := by
  unfold withEqual? at hc
  split at hc
  case h_5 => contradiction
  all_goals
    cases hc
    decide

/-- A semicolon is spelled in one way only. -/
theorem Spells.eq_of_semicolon {text : List Char} {next : Option Char}
    (htext : Spells (.ok .semicolon) text next) : text = [';'] := by
  generalize hkind : Except.ok TokenKind.semicolon = kind at htext
  cases htext with
  | single hc =>
      obtain rfl := Except.ok.inj hkind
      unfold single? at hc
      split at hc
      case h_8 => rfl
      all_goals contradiction
  | short hc _ => exact absurd (Except.ok.inj hkind).symm (ne_semicolon_of_withEqual? hc).1
  | long hc => exact absurd (Except.ok.inj hkind).symm (ne_semicolon_of_withEqual? hc).2
  | @word c word =>
      have hmem := getD_ofKeyword?_mem (String.ofList (c :: word))
      rw [← Except.ok.inj hkind] at hmem
      exact absurd hmem (by decide)
  | _ => contradiction

/-! ## Classes of characters -/

theorem inRanges_eq_false_of_lt {n low high : Nat} (hlt : n < low) (ranges : List (Nat × Nat)) :
    Text.inRanges n ((low, high) :: ranges) = false := by
  simp [Text.inRanges, Nat.not_le.mpr hlt]

theorem isLetter_eq_false_of_isDigit {c : Char} (hc : isDigit c = true) : isLetter c = false := by
  have hne : c ≠ '_' := by
    rintro rfl
    contradiction
  have hlt : c.toNat < 0x41 := by
    simp only [isDigit, Bool.and_eq_true, decide_eq_true_eq] at hc
    have hle : c.toNat ≤ '9'.toNat := hc.2
    exact Nat.lt_of_le_of_lt hle (by decide)
  have halpha : Text.isAlphabetic c = false := inRanges_eq_false_of_lt hlt _
  simp [isLetter, halpha, hne]

/-- Where a word or a numeral starts, no lexeme of another sort does. -/
theorem starts_of_isWordChar {c : Char} (hc : isWordChar c = true) :
    single? c = none ∧ withEqual? c = none ∧ c ≠ '.' ∧ c ≠ '"' := by
  have hne : ∀ d, isWordChar d = false → c ≠ d := by
    rintro d hd rfl
    simp [hc] at hd
  refine ⟨?_, ?_, hne _ (by decide), hne _ (by decide)⟩
  · unfold single?
    split
    case h_12 => rfl
    all_goals exact absurd rfl (hne _ (by decide))
  · unfold withEqual?
    split
    case h_5 => rfl
    all_goals exact absurd rfl (hne _ (by decide))

/-! ## Runs of characters -/

section Runs

variable {p : Char → Bool} {run rest : List Char}

theorem takeWhile_append_stop (hrun : ∀ c ∈ run, p c = true) (hrest : rest.head?.any p = false) :
    (run ++ rest).takeWhile p = run := by
  rw [List.takeWhile_append_of_pos hrun]
  cases rest with
  | nil => simp
  | cons c rest =>
      have hc : p c = false := hrest
      simp [hc]

theorem dropWhile_append_stop (hrun : ∀ c ∈ run, p c = true) (hrest : rest.head?.any p = false) :
    (run ++ rest).dropWhile p = rest := by
  rw [List.dropWhile_append_of_pos hrun]
  cases rest with
  | nil => rfl
  | cons c rest =>
      have hc : p c = false := hrest
      simp [hc]

theorem any_head?_dropWhile (p : Char → Bool) (cs : List Char) :
    (cs.dropWhile p).head?.any p = false := by
  have hstop := List.head?_dropWhile_not p cs
  cases hhead : (cs.dropWhile p).head? with
  | none => rfl
  | some c =>
      rw [hhead] at hstop
      exact hstop

end Runs

/-! ## What is read is spelled -/

theorem spells_numeral {text rest : List Char} (htext : IsNumeral text rest.head?) :
    Spells (numeral text rest).kind (numeral text rest).text (numeral text rest).rest.head? := by
  unfold numeral
  split
  next hletter =>
    cases rest with
    | nil => contradiction
    | cons c rest =>
        have hc : isLetter c = true := hletter
        have hword : isWordChar c = true := by simp [isWordChar, hc]
        rw [List.takeWhile_cons_of_pos hword, List.dropWhile_cons_of_pos hword]
        exact .malformed htext hc (fun d hd => List.mem_takeWhile_imp hd)
          (any_head?_dropWhile isWordChar rest)
  next hletter => exact .number htext (by simpa using hletter)

theorem spells_fraction (whole : List Char) {rest : List Char}
    (hwhole : ∀ c ∈ whole, isDigit c = true)
    (hne : whole ≠ [] ∨ rest.head?.any isDigit = true) :
    Spells (fraction (whole ++ ['.']) rest).kind (fraction (whole ++ ['.']) rest).text
      (fraction (whole ++ ['.']) rest).rest.head? := by
  unfold fraction
  rw [List.append_assoc]
  apply spells_numeral
  refine .fraction hwhole (fun c hc => List.mem_takeWhile_imp hc) ?_ (any_head?_dropWhile _ _)
  refine hne.imp_right fun hdigit => ?_
  cases rest with
  | nil => contradiction
  | cons c rest =>
      have hc : isDigit c = true := hdigit
      simp [hc]

theorem spells_number {c : Char} (hc : isDigit c = true) (cs : List Char) :
    Spells (number c cs).kind (number c cs).text (number c cs).rest.head? := by
  have hdigits : ∀ d ∈ c :: cs.takeWhile isDigit, isDigit d = true :=
    List.forall_mem_cons.mpr ⟨hc, fun d hd => List.mem_takeWhile_imp hd⟩
  unfold number
  dsimp only
  split
  next => exact spells_fraction _ hdigits (.inl (List.cons_ne_nil _ _))
  next hpoint =>
    apply spells_numeral
    refine .whole hdigits (List.cons_ne_nil _ _) (any_head?_dropWhile _ _) fun hhead => ?_
    rcases List.head?_eq_some_iff.mp hhead with ⟨rest, hrest⟩
    exact hpoint rest hrest

theorem spells_quoted (cs : List Char) :
    Spells (quoted cs).kind (quoted cs).text (quoted cs).rest.head? := by
  have hbody : ∀ c ∈ cs.takeWhile isQuotable, isQuotable c = true :=
    fun c hc => List.mem_takeWhile_imp hc
  unfold quoted
  dsimp only
  split
  next => exact .string hbody
  next hquote =>
    refine .unterminated hbody ?_
    have hstop := any_head?_dropWhile isQuotable cs
    cases hrest : cs.dropWhile isQuotable with
    | nil => exact .inl rfl
    | cons c rest =>
        rw [hrest] at hstop
        have hc : isQuotable c = false := hstop
        have hne : c ≠ '"' := by
          rintro rfl
          exact hquote rest hrest
        simp only [isQuotable, Bool.and_eq_false_iff, bne_eq_false_iff_eq, hne, false_or] at hc
        exact .inr (congrArg some hc)

/-- What is read is spelled as its kind, up to the character that is left next. -/
theorem spells_read (c : Char) (cs : List Char) :
    Spells (read c cs).kind (read c cs).text (read c cs).rest.head? := by
  unfold read
  split
  next kind _ hc => exact .single hc
  next short long _ hc =>
    unfold operator
    split
    next => exact .long hc
    next hequal =>
      refine .short hc fun hhead => ?_
      rcases List.head?_eq_some_iff.mp hhead with ⟨rest, hrest⟩
      exact hequal rest hrest
  next hsingle hwithEqual =>
    split
    next hpoint =>
      unfold point
      split
      next hdigit => exact spells_fraction [] (by simp) (.inr hdigit)
      next hdigit => exact .dot (by simpa using hdigit)
    next hpoint =>
      split
      next => exact spells_quoted cs
      next hquote =>
        split
        next hdigit => exact spells_number hdigit cs
        next hdigit =>
          split
          next hletter =>
            exact .word hletter (fun d hd => List.mem_takeWhile_imp hd) (any_head?_dropWhile _ _)
          next hletter =>
            exact .unexpected ⟨hsingle, hwithEqual, hpoint, hquote, by simpa using hdigit,
              by simpa using hletter⟩

/-! ## What is spelled is read -/

theorem read_point (cs : List Char) : read '.' cs = point cs := rfl

theorem read_quote (cs : List Char) : read '"' cs = quoted cs := rfl

theorem read_withEqual {c : Char} {short long : TokenKind}
    (hc : withEqual? c = some (short, long)) (cs : List Char) :
    read c cs = operator c short long cs := by
  unfold withEqual? at hc
  split at hc
  case h_5 => contradiction
  all_goals
    obtain ⟨rfl, rfl⟩ := Prod.mk.inj (Option.some.inj hc)
    rfl

theorem read_digit {c : Char} (hc : isDigit c = true) (cs : List Char) :
    read c cs = number c cs := by
  obtain ⟨hsingle, hwithEqual, hpoint, hquote⟩ :=
    starts_of_isWordChar (c := c) (by simp [isWordChar, hc])
  simp [read, hsingle, hwithEqual, hpoint, hquote, hc]

theorem read_letter {c : Char} (hc : isLetter c = true) (cs : List Char) :
    read c cs = word c cs := by
  have hdigit : isDigit c = false := by
    rw [Bool.eq_false_iff]
    intro hdigit
    simp [isLetter_eq_false_of_isDigit hdigit] at hc
  obtain ⟨hsingle, hwithEqual, hpoint, hquote⟩ :=
    starts_of_isWordChar (c := c) (by simp [isWordChar, hc])
  simp [read, hsingle, hwithEqual, hpoint, hquote, hdigit, hc]

/-- A numeral is read up to its end, and what comes next tells whether it is spoiled. -/
theorem read_of_isNumeral {text rest : List Char} (htext : IsNumeral text rest.head?) {c : Char}
    {cs : List Char} (hcs : text = c :: cs) : read c (cs ++ rest) = numeral text rest := by
  cases htext with
  | whole hdigits _ hnext hpoint =>
      subst hcs
      rcases List.forall_mem_cons.mp hdigits with ⟨hc, hcs⟩
      rw [read_digit hc, number, takeWhile_append_stop hcs hnext, dropWhile_append_stop hcs hnext]
      split
      next => exact absurd rfl hpoint
      next => rfl
  | @fraction whole part _ hwhole hpart hne hnext =>
      cases whole with
      | nil =>
          obtain ⟨rfl, rfl⟩ := List.cons.inj hcs
          have hdigit : (part ++ rest).head?.any isDigit = true := by
            cases part with
            | nil => simp at hne
            | cons d part => exact hpart d List.mem_cons_self
          rw [read_point, point, if_pos hdigit, fraction, takeWhile_append_stop hpart hnext,
            dropWhile_append_stop hpart hnext]
          rfl
      | cons d whole =>
          rw [List.cons_append] at hcs
          obtain ⟨rfl, rfl⟩ := List.cons.inj hcs
          rcases List.forall_mem_cons.mp hwhole with ⟨hd, hwhole⟩
          have hstop : ('.' :: part ++ rest).head?.any isDigit = false := rfl
          rw [read_digit hd, number, List.append_assoc, takeWhile_append_stop hwhole hstop,
            dropWhile_append_stop hwhole hstop]
          simp only [List.cons_append, fraction, takeWhile_append_stop hpart hnext,
            dropWhile_append_stop hpart hnext, List.append_assoc, List.nil_append]

/-- What is spelled is read, whatever follows the next character. -/
theorem read_of_spells {kind : Except LexError TokenKind} {text rest : List Char}
    (htext : Spells kind text rest.head?) {c : Char} {cs : List Char} (hcs : text = c :: cs) :
    read c (cs ++ rest) = ⟨kind, text, rest⟩ := by
  cases htext with
  | single hc =>
      obtain ⟨rfl, rfl⟩ := List.cons.inj hcs
      simp [read, hc]
  | short hc hnext =>
      obtain ⟨rfl, rfl⟩ := List.cons.inj hcs
      rw [List.nil_append, read_withEqual hc]
      unfold operator
      split
      next => exact absurd rfl hnext
      next => rfl
  | long hc =>
      obtain ⟨rfl, rfl⟩ := List.cons.inj hcs
      exact read_withEqual hc _
  | dot hnext =>
      obtain ⟨rfl, rfl⟩ := List.cons.inj hcs
      rw [List.nil_append, read_point, point, hnext]
      rfl
  | number htext hnext => rw [read_of_isNumeral htext hcs, numeral, hnext]; rfl
  | @malformed text d word _ htext hd hword hnext =>
      obtain ⟨first, others, rfl⟩ := List.exists_cons_of_ne_nil htext.ne_nil
      rw [List.cons_append] at hcs
      obtain ⟨rfl, rfl⟩ := List.cons.inj hcs
      have hrun : ∀ e ∈ d :: word, isWordChar e = true :=
        List.forall_mem_cons.mpr ⟨by simp [isWordChar, hd], hword⟩
      have hread : read first (others ++ (d :: word ++ rest)) = numeral _ (d :: word ++ rest) :=
        read_of_isNumeral htext rfl
      have hletter : (d :: word ++ rest).head?.any isLetter = true := hd
      rw [List.append_assoc, hread, numeral, if_pos hletter, takeWhile_append_stop hrun hnext,
        dropWhile_append_stop hrun hnext]
  | word hc hword hnext =>
      obtain ⟨rfl, rfl⟩ := List.cons.inj hcs
      rw [read_letter hc, Lexeme.word, takeWhile_append_stop hword hnext,
        dropWhile_append_stop hword hnext]
  | string hbody =>
      rw [List.cons_append] at hcs
      obtain ⟨rfl, rfl⟩ := List.cons.inj hcs
      have hquote : ('"' :: rest).head?.any isQuotable = false := rfl
      rw [read_quote, quoted, List.append_assoc, List.singleton_append,
        takeWhile_append_stop hbody hquote, dropWhile_append_stop hbody hquote]
      rfl
  | unterminated hbody hnext =>
      obtain ⟨rfl, rfl⟩ := List.cons.inj hcs
      have hstop : rest.head?.any isQuotable = false := by
        rcases hnext with hnext | hnext
        all_goals
          rw [hnext]
          rfl
      rw [read_quote, quoted, takeWhile_append_stop hbody hstop, dropWhile_append_stop hbody hstop]
      split
      next => simp at hnext
      next => rfl
  | unexpected hc =>
      obtain ⟨rfl, rfl⟩ := List.cons.inj hcs
      simp [read, hc.single, hc.withEqual, hc.point, hc.quote, hc.digit, hc.letter]

/-! ## Other characters next -/

/-- No lexeme goes on with what comes next. -/
def Separates (next : Option Char) : Prop :=
  ∀ c ∈ next, isWordChar c = false ∧ c ≠ '.' ∧ c ≠ '='

section Separates

variable {next next' : Option Char} (hnext : Separates next')

include hnext

theorem Separates.any_eq_false {p : Char → Bool} (hp : ∀ c, p c = true → isWordChar c = true) :
    next'.any p = false := by
  cases next' with
  | none => rfl
  | some c =>
      have hc := (hnext c rfl).1
      rw [Option.any_some, Bool.eq_false_iff]
      intro hpc
      rw [hp c hpc] at hc
      contradiction

theorem Separates.ne_some {c : Char} (hc : c = '.' ∨ c = '=') : next' ≠ some c := by
  rintro rfl
  rcases hc with hc | hc
  · exact (hnext c rfl).2.1 hc
  · exact (hnext c rfl).2.2 hc

theorem IsNumeral.of_separates {text : List Char} (htext : IsNumeral text next) :
    IsNumeral text next' := by
  have hdigit : next'.any isDigit = false := hnext.any_eq_false fun c hc => by simp [isWordChar, hc]
  cases htext with
  | whole hdigits hne _ _ => exact .whole hdigits hne hdigit (hnext.ne_some (.inl rfl))
  | fraction hwhole hpart hne _ => exact .fraction hwhole hpart hne hdigit

/-- A lexeme stays one in front of a character that goes on with none. -/
theorem Spells.of_separates {kind : TokenKind} {text : List Char}
    (htext : Spells (.ok kind) text next) : Spells (.ok kind) text next' := by
  cases htext with
  | single hc => exact .single hc
  | short hc _ => exact .short hc (hnext.ne_some (.inr rfl))
  | long hc => exact .long hc
  | dot _ => exact .dot (hnext.any_eq_false fun c hc => by simp [isWordChar, hc])
  | number htext _ =>
      exact .number (htext.of_separates hnext)
        (hnext.any_eq_false fun c hc => by simp [isWordChar, hc])
  | word hc hword _ => exact .word hc hword (hnext.any_eq_false fun c hc => hc)
  | string hbody => exact .string hbody

end Separates

end Scriptlet.Lexeme
