import Scriptlet.Proofs.Scanning

/-! # Longest matches

The lexical grammar says which texts are numerals, words, strings and symbols. What stands first in
the input tells of which sort the next lexeme is, and it is the longest text of that sort. Exactly
one lexeme follows this rule, and it is the one that a lexer hands out.
-/

namespace Scriptlet

namespace Lexeme

/-! ## The grammar -/

/-- A text is the longest one of a class with which the input starts. -/
structure IsLongest (P : List Char → Prop) (text input : List Char) : Prop where
  isPrefix : text <+: input
  mem : P text
  length_le : ∀ other, other <+: input → P other → other.length ≤ text.length

/-- All characters are of one class. -/
def IsRun (p : Char → Bool) (text : List Char) : Prop :=
  ∀ c ∈ text, p c = true

inductive IsNumeralText : List Char → Prop
  | whole {digits : List Char} (hdigits : IsRun isDigit digits) (hne : digits ≠ []) :
      IsNumeralText digits
  | point {whole part : List Char} (hwhole : IsRun isDigit whole) (hne : whole ≠ [])
      (hpart : IsRun isDigit part) : IsNumeralText (whole ++ '.' :: part)
  | fraction {part : List Char} (hpart : IsRun isDigit part) (hne : part ≠ []) :
      IsNumeralText ('.' :: part)

structure IsWordText (text : List Char) : Prop where
  head : text.head?.any isLetter = true
  run : IsRun isWordChar text

/-- Two quotes on one line, with no other quote between them. -/
def IsStringText (text : List Char) : Prop :=
  ∃ body, text = '"' :: body ++ ['"'] ∧ '"' ∉ body ∧ '\n' ∉ body

/-- The reserved words, each with its kind. -/
def reserved : List (String × TokenKind) :=
  [("if", .kwIf), ("for", .kwFor), ("else", .kwElse), ("decl", .kwDecl), ("print", .kwPrint),
   ("and", .kwAnd), ("or", .kwOr), ("nil", .kwNil), ("true", .kwTrue), ("false", .kwFalse),
   ("return", .kwReturn), ("while", .kwWhile), ("fn", .kwFn)]

/-- The symbols of one character. -/
def symbols : List TokenKind :=
  [.leftParen, .rightParen, .leftBrace, .rightBrace, .comma, .dot, .minus, .plus, .semicolon,
   .slash, .star, .colon, .bang, .equal, .less, .greater]

/-- The symbols that an equals sign extends. -/
def extensible : List Char := ['!', '=', '<', '>']

/-- The symbols of two characters. -/
def longSymbols : List TokenKind := [.bangEqual, .equalEqual, .lessEqual, .greaterEqual]

/-- A digit comes first, or a point and then a digit. -/
def StartsNumeral (input : List Char) : Prop :=
  input.head?.any isDigit = true ∨ ∃ d rest, input = '.' :: d :: rest ∧ isDigit d = true

/-- The lexeme at the front of the input by the rule of the longest match. -/
inductive Follows (input : List Char) : Lexeme → Prop
  | number {text rest : List Char} (hinput : input = text ++ rest) (hstart : StartsNumeral input)
      (htext : IsLongest IsNumeralText text input) (hnext : rest.head?.any isLetter = false) :
      Follows input ⟨.ok .number, text, rest⟩
  /-- A word that runs into a numeral is taken along. -/
  | malformed {text word rest : List Char} (hinput : input = text ++ (word ++ rest))
      (hstart : StartsNumeral input) (htext : IsLongest IsNumeralText text input)
      (hnext : (word ++ rest).head?.any isLetter = true)
      (hword : IsLongest (IsRun isWordChar) word (word ++ rest)) :
      Follows input ⟨.error .malformedNumber, text ++ word, rest⟩
  | keyword {kind : TokenKind} {text rest : List Char} (hinput : input = text ++ rest)
      (hstart : input.head?.any isLetter = true) (htext : IsLongest (IsRun isWordChar) text input)
      (hword : (String.ofList text, kind) ∈ reserved) : Follows input ⟨.ok kind, text, rest⟩
  | identifier {text rest : List Char} (hinput : input = text ++ rest)
      (hstart : input.head?.any isLetter = true) (htext : IsLongest (IsRun isWordChar) text input)
      (hword : ∀ kind, (String.ofList text, kind) ∉ reserved) :
      Follows input ⟨.ok .identifier, text, rest⟩
  | string {text rest : List Char} (hinput : input = text ++ rest) (htext : IsStringText text) :
      Follows input ⟨.ok .string, text, rest⟩
  /-- Without a second quote on its line, a quote takes the rest of the line along. -/
  | unterminated {text rest : List Char} (hinput : input = text ++ rest)
      (hstart : input.head? = some '"') (hnone : ∀ other, other <+: input → ¬IsStringText other)
      (htext : IsLongest (IsRun (· != '\n')) text input) :
      Follows input ⟨.error .unterminatedString, text, rest⟩
  | longSymbol {kind : TokenKind} {text rest : List Char} (hinput : input = text ++ rest)
      (hkind : kind ∈ longSymbols) (hname : kind.name = String.ofList text) :
      Follows input ⟨.ok kind, text, rest⟩
  | symbol {kind : TokenKind} {c : Char} {rest : List Char} (hinput : input = c :: rest)
      (hkind : kind ∈ symbols) (hname : kind.name = String.ofList [c])
      (hequal : c ∈ extensible → rest.head? ≠ some '=')
      (hpoint : c = '.' → rest.head?.any isDigit = false) : Follows input ⟨.ok kind, [c], rest⟩
  /-- A character with which nothing starts is taken alone. -/
  | unexpected {c : Char} {rest : List Char} (hinput : input = c :: rest)
      (hdigit : isDigit c = false) (hletter : isLetter c = false) (hquote : c ≠ '"')
      (hsymbol : ∀ kind ∈ symbols, kind.name ≠ String.ofList [c]) :
      Follows input ⟨.error .unexpectedCharacter, [c], rest⟩

/-! ## Longest texts -/

section Longest

variable {P : List Char → Prop} {text rest : List Char}

/-- A text is the longest one if no further characters of the input can be added. -/
theorem isLongest_append_iff :
    IsLongest P text (text ++ rest) ↔
      P text ∧ ∀ c more, c :: more <+: rest → ¬P (text ++ c :: more) := by
  constructor
  · rintro ⟨_, hmem, hlength⟩
    refine ⟨hmem, fun c more hmore hP => ?_⟩
    have hle := hlength _ ((List.prefix_append_right_inj text).mpr hmore) hP
    rw [List.length_append, List.length_cons] at hle
    omega
  · rintro ⟨hmem, hmore⟩
    refine ⟨List.prefix_append text rest, hmem, fun other hother hP => ?_⟩
    rcases List.prefix_or_prefix_of_prefix hother (List.prefix_append text rest) with
      hle | ⟨more, rfl⟩
    · exact hle.length_le
    · cases more with
      | nil => simp
      | cons c more =>
          exact absurd hP (hmore c more ((List.prefix_append_right_inj text).mp hother))

theorem IsRun.append_singleton {p : Char → Bool} (htext : IsRun p text) {c : Char}
    (hc : p c = true) : IsRun p (text ++ [c]) := by
  intro d hd
  rcases List.mem_append.mp hd with hd | hd
  · exact htext d hd
  · rwa [List.mem_singleton.mp hd]

theorem isLongest_run_iff {p : Char → Bool} :
    IsLongest (IsRun p) text (text ++ rest) ↔ IsRun p text ∧ rest.head?.any p = false := by
  rw [isLongest_append_iff]
  refine and_congr_right fun htext => ⟨fun hmore => ?_, fun hnext c more hprefix hrun => ?_⟩
  · cases rest with
    | nil => rfl
    | cons c rest =>
        rw [List.head?_cons, Option.any_some, Bool.eq_false_iff]
        intro hc
        exact hmore c [] ⟨rest, rfl⟩ (htext.append_singleton hc)
  · obtain ⟨tail, rfl⟩ := hprefix
    have hc : p c = true := hrun c (by simp)
    rw [List.cons_append, List.head?_cons, Option.any_some, hc] at hnext
    contradiction

end Longest

/-! ## Numerals -/

section Numerals

variable {text rest : List Char}

theorem IsNumeralText.append_digit (htext : IsNumeralText text) {d : Char}
    (hd : isDigit d = true) : IsNumeralText (text ++ [d]) := by
  cases htext with
  | whole hdigits _ => exact .whole (hdigits.append_singleton hd) (by simp)
  | point hwhole hne hpart =>
      rw [List.append_assoc, List.cons_append]
      exact .point hwhole hne (hpart.append_singleton hd)
  | fraction hpart _ => exact .fraction (hpart.append_singleton hd) (by simp)

theorem IsRun.count_point (hdigits : IsRun isDigit text) : text.count '.' = 0 := by
  apply List.count_eq_zero_of_not_mem
  intro hmem
  exact absurd (hdigits '.' hmem) (by decide)

theorem IsNumeralText.count_le (htext : IsNumeralText text) : text.count '.' ≤ 1 := by
  cases htext with
  | whole hdigits _ => simp [hdigits.count_point]
  | point hwhole _ hpart => simp [hwhole.count_point, hpart.count_point]
  | fraction hpart _ => simp [hpart.count_point]

theorem IsNumeralText.digit_or_point (htext : IsNumeralText text) :
    ∀ c ∈ text, isDigit c = true ∨ c = '.' := by
  intro c hc
  cases htext with
  | whole hdigits _ => exact .inl (hdigits c hc)
  | point hwhole _ hpart =>
      rcases List.mem_append.mp hc with hc | hc
      · exact .inl (hwhole c hc)
      · exact (List.mem_cons.mp hc).symm.imp_left (hpart c)
  | fraction hpart _ => exact (List.mem_cons.mp hc).symm.imp_left (hpart c)

/-- The longest numeral ends where the next character does not go on with it. -/
theorem isLongest_numeral_iff :
    IsLongest IsNumeralText text (text ++ rest) ↔ IsNumeral text rest.head? := by
  rw [isLongest_append_iff]
  constructor
  · rintro ⟨htext, hmore⟩
    have hdigit : rest.head?.any isDigit = false := by
      cases rest with
      | nil => rfl
      | cons c rest =>
          rw [List.head?_cons, Option.any_some, Bool.eq_false_iff]
          intro hc
          exact hmore c [] ⟨rest, rfl⟩ (htext.append_digit hc)
    cases htext with
    | whole hdigits hne =>
        refine .whole hdigits hne hdigit fun hpoint => ?_
        obtain ⟨tail, rfl⟩ := List.head?_eq_some_iff.mp hpoint
        exact hmore '.' [] ⟨tail, rfl⟩ (.point hdigits hne (by simp [IsRun]))
    | point hwhole hne hpart => exact .fraction hwhole hpart (.inl hne) hdigit
    | @fraction part hpart hne =>
        have hwhole : ∀ c ∈ ([] : List Char), isDigit c = true := by simp
        exact .fraction hwhole hpart (.inr hne) hdigit
  · intro htext
    cases htext with
    | whole hdigits hne hdigit hpoint =>
        refine ⟨.whole hdigits hne, ?_⟩
        rintro c more ⟨tail, rfl⟩ hnumeral
        rcases hnumeral.digit_or_point c (by simp) with hc | rfl
        · simp [hc] at hdigit
        · exact hpoint rfl
    | @fraction whole part _ hwhole hpart hne hdigit =>
        constructor
        · cases whole with
          | nil => exact .fraction hpart (hne.resolve_left (fun h => h rfl))
          | cons d whole => exact .point hwhole (List.cons_ne_nil _ _) hpart
        · rintro c more ⟨tail, rfl⟩ hnumeral
          rcases hnumeral.digit_or_point c (by simp) with hc | rfl
          · simp [hc] at hdigit
          · -- There would be two points.
            have hcount := hnumeral.count_le
            simp only [List.count_append, List.count_cons_self] at hcount
            omega

theorem startsNumeral_of_isNumeral (htext : IsNumeral text rest.head?) :
    StartsNumeral (text ++ rest) := by
  have hdigit : ∀ {c : Char} {cs : List Char}, (∀ d ∈ c :: cs, isDigit d = true) →
      isDigit c = true := fun hdigits => hdigits _ List.mem_cons_self
  cases htext with
  | whole hdigits hne _ _ =>
      obtain ⟨c, cs, rfl⟩ := List.exists_cons_of_ne_nil hne
      exact .inl (hdigit hdigits)
  | @fraction whole part _ hwhole hpart hne _ =>
      cases whole with
      | cons c cs => exact .inl (hdigit hwhole)
      | nil =>
          obtain ⟨d, part, rfl⟩ := List.exists_cons_of_ne_nil (hne.resolve_left (fun h => h rfl))
          exact .inr ⟨d, part ++ rest, rfl, hdigit hpart⟩

end Numerals

/-! ## Words, strings and symbols -/

/-- The lexer knows the reserved words. -/
theorem ofKeyword?_eq_some_iff {kind : TokenKind} {word : String} :
    TokenKind.ofKeyword? word = some kind ↔ (word, kind) ∈ reserved := by
  constructor
  · intro hfind
    have hname := List.find?_some (p := fun kind : TokenKind => kind.name == word) hfind
    rw [← eq_of_beq hname]
    have hall : ∀ kind ∈ TokenKind.keywords, (kind.name, kind) ∈ reserved := by decide
    exact hall kind (List.mem_of_find?_eq_some hfind)
  · intro hword
    -- No two reserved words are spelled alike.
    have hall : ∀ entry ∈ reserved, TokenKind.ofKeyword? entry.1 = some entry.2 := by decide
    exact hall _ hword

theorem ofKeyword?_eq_none_iff {word : String} :
    TokenKind.ofKeyword? word = none ↔ ∀ kind, (word, kind) ∉ reserved := by
  simp only [Option.eq_none_iff_forall_ne_some, ne_eq, ofKeyword?_eq_some_iff]

theorem isQuotable_iff {body : List Char} :
    (∀ c ∈ body, isQuotable c = true) ↔ '"' ∉ body ∧ '\n' ∉ body := by
  simp only [isQuotable, Bool.and_eq_true, bne_iff_ne]
  constructor
  · intro hbody
    exact ⟨fun hmem => (hbody _ hmem).1 rfl, fun hmem => (hbody _ hmem).2 rfl⟩
  · rintro ⟨hquote, hline⟩ c hc
    constructor
    · rintro rfl
      exact hquote hc
    · rintro rfl
      exact hline hc

/-- Behind a quote, the rest of the line holds no other one if no string starts there. -/
theorem isQuotable_of_not_isStringText {body rest : List Char}
    (hnone : ∀ other, other <+: '"' :: body ++ rest → ¬IsStringText other) (hline : '\n' ∉ body) :
    ∀ c ∈ body, isQuotable c = true := by
  refine isQuotable_iff.mpr ⟨fun hquote => ?_, hline⟩
  obtain ⟨front, back, rfl, hfront⟩ := List.eq_append_cons_of_mem hquote
  refine hnone ('"' :: front ++ ['"']) ⟨back ++ rest, by simp⟩ ⟨front, rfl, hfront, fun hmem => ?_⟩
  exact hline (List.mem_append_left _ hmem)

theorem not_isStringText_of_unterminated {body rest : List Char}
    (hbody : ∀ c ∈ body, isQuotable c = true) (hnext : rest.head? = none ∨ rest.head? = some '\n')
    {other : List Char} (hother : other <+: '"' :: body ++ rest) : ¬IsStringText other := by
  rintro ⟨inner, rfl, _, hline⟩
  obtain ⟨hquote, _⟩ := isQuotable_iff.mp hbody
  rw [List.cons_append, List.cons_append, List.cons_prefix_cons] at hother
  -- The second quote would have to be in the body, or behind the end of the line.
  rcases List.prefix_or_prefix_of_prefix hother.2 (List.prefix_append body rest) with hle | hle
  · exact hquote (hle.subset (by simp))
  · obtain ⟨more, hmore⟩ := hle
    rw [← hmore, List.prefix_append_right_inj] at hother
    cases more with
    | nil =>
        rw [List.append_nil] at hmore
        exact hquote (hmore ▸ by simp)
    | cons c more =>
        obtain ⟨tail, rfl⟩ := hother.2
        obtain rfl : c = '\n' := by simpa using hnext
        have hmem : '\n' ∈ inner ++ ['"'] := hmore ▸ by simp
        simp [hline] at hmem

/-- How a symbol of one character is read. -/
theorem symbol_cases {kind : TokenKind} {c : Char} (hkind : kind ∈ symbols)
    (hname : kind.name = String.ofList [c]) :
    single? c = some kind ∨ (∃ long, withEqual? c = some (kind, long)) ∧ c ∈ extensible ∨
      c = '.' ∧ kind = .dot := by
  have hall : (symbols.all fun kind => kind.name.toList.all fun d => single? d = some kind ∨
      (withEqual? d).map Prod.fst = some kind ∧ d ∈ extensible ∨ d = '.' ∧ kind = .dot) = true := by
    decide
  have hmem : c ∈ kind.name.toList := by simp [hname]
  have hcases := List.all_eq_true.mp (List.all_eq_true.mp hall kind hkind) c hmem
  refine (of_decide_eq_true hcases).imp_right (Or.imp_left (And.imp_left fun hequal => ?_))
  obtain ⟨⟨short, long⟩, hc, rfl⟩ := Option.map_eq_some_iff.mp hequal
  exact ⟨long, hc⟩

theorem longSymbol_cases {kind : TokenKind} {text : List Char} (hkind : kind ∈ longSymbols)
    (hname : kind.name = String.ofList text) :
    ∃ c short, text = [c, '='] ∧ withEqual? c = some (short, kind) := by
  have hall : (longSymbols.all fun kind => extensible.any fun c =>
      kind.name.toList = [c, '='] ∧ (withEqual? c).map Prod.snd = some kind) = true := by
    decide
  obtain ⟨c, _, hsplit⟩ := List.any_eq_true.mp (List.all_eq_true.mp hall kind hkind)
  obtain ⟨htext, hequal⟩ := of_decide_eq_true hsplit
  obtain ⟨⟨short, long⟩, hc, rfl⟩ := Option.map_eq_some_iff.mp hequal
  rw [hname, String.toList_ofList] at htext
  exact ⟨c, short, htext, hc⟩

theorem mem_symbols_of_single? {kind : TokenKind} {c : Char} (hc : single? c = some kind) :
    kind ∈ symbols ∧ kind.name = String.ofList [c] ∧ c ∉ extensible ∧ c ≠ '.' := by
  unfold single? at hc
  split at hc
  case h_12 => contradiction
  all_goals
    obtain rfl := Option.some.inj hc
    decide

theorem mem_symbols_of_withEqual? {short long : TokenKind} {c : Char}
    (hc : withEqual? c = some (short, long)) :
    (short ∈ symbols ∧ short.name = String.ofList [c] ∧ c ≠ '.') ∧
      long ∈ longSymbols ∧ long.name = String.ofList [c, '='] := by
  unfold withEqual? at hc
  split at hc
  case h_5 => contradiction
  all_goals
    obtain ⟨rfl, rfl⟩ := Prod.mk.inj (Option.some.inj hc)
    decide

/-! ## The rule and the spelling of lexemes -/

section Follows

variable {input text rest : List Char} {lexeme : Lexeme}

/-- A run of word characters in front of which a letter stands has that letter. -/
theorem exists_cons_of_isLongest (hstart : (text ++ rest).head?.any isLetter = true)
    (htext : IsLongest (IsRun isWordChar) text (text ++ rest)) :
    ∃ c word, text = c :: word ∧ isLetter c = true ∧ (∀ d ∈ word, isWordChar d = true) ∧
      rest.head?.any isWordChar = false := by
  obtain ⟨hrun, hstop⟩ := isLongest_run_iff.mp htext
  cases text with
  | cons c word =>
      exact ⟨c, word, rfl, hstart, fun d hd => hrun d (List.mem_cons_of_mem c hd), hstop⟩
  | nil =>
      cases rest with
      | nil => contradiction
      | cons c rest =>
          have hc : isLetter c = true := hstart
          simp [isWordChar, hc] at hstop

theorem spells_word {kind : TokenKind} (hstart : (text ++ rest).head?.any isLetter = true)
    (htext : IsLongest (IsRun isWordChar) text (text ++ rest))
    (hkind : (TokenKind.ofKeyword? (String.ofList text)).getD .identifier = kind) :
    Spells (.ok kind) text rest.head? := by
  obtain ⟨c, word, rfl, hc, hword, hstop⟩ := exists_cons_of_isLongest hstart htext
  rw [← hkind]
  exact .word hc hword hstop

theorem spells_unterminated (hstart : (text ++ rest).head? = some '"')
    (hnone : ∀ other, other <+: text ++ rest → ¬IsStringText other)
    (htext : IsLongest (IsRun (· != '\n')) text (text ++ rest)) :
    Spells (.error .unterminatedString) text rest.head? := by
  obtain ⟨hrun, hstop⟩ := isLongest_run_iff.mp htext
  cases text with
  | nil =>
      rw [List.nil_append] at hstart
      rw [hstart] at hstop
      contradiction
  | cons c body =>
      obtain rfl : c = '"' := Option.some.inj hstart
      have hline : '\n' ∉ body := by
        intro hmem
        simpa using hrun _ (List.mem_cons_of_mem _ hmem)
      refine .unterminated (isQuotable_of_not_isStringText hnone hline) ?_
      cases rest with
      | nil => exact .inl rfl
      | cons d rest => exact .inr (by simpa using hstop)

theorem isUnexpected_iff {c : Char} :
    IsUnexpected c ↔ isDigit c = false ∧ isLetter c = false ∧ c ≠ '"' ∧
      ∀ kind ∈ symbols, kind.name ≠ String.ofList [c] := by
  constructor
  · rintro ⟨hsingle, hequal, hpoint, hquote, hdigit, hletter⟩
    refine ⟨hdigit, hletter, hquote, fun kind hkind hname => ?_⟩
    rcases symbol_cases hkind hname with hc | ⟨⟨long, hc⟩, _⟩ | ⟨hc, _⟩
    · simp [hsingle] at hc
    · simp [hequal] at hc
    · exact hpoint hc
  · rintro ⟨hdigit, hletter, hquote, hsymbol⟩
    refine ⟨?_, ?_, ?_, hquote, hdigit, hletter⟩
    · rw [Option.eq_none_iff_forall_ne_some]
      intro kind hc
      obtain ⟨hkind, hname, _⟩ := mem_symbols_of_single? hc
      exact hsymbol kind hkind hname
    · rw [Option.eq_none_iff_forall_ne_some]
      rintro ⟨short, long⟩ hc
      obtain ⟨⟨hkind, hname, _⟩, _⟩ := mem_symbols_of_withEqual? hc
      exact hsymbol short hkind hname
    · rintro rfl
      exact hsymbol .dot (by decide) (by decide)

theorem spells_of_follows (hfollows : Follows input lexeme) :
    input = lexeme.text ++ lexeme.rest ∧ Spells lexeme.kind lexeme.text lexeme.rest.head? := by
  cases hfollows with
  | number hinput _ htext hnext =>
      subst hinput
      exact ⟨rfl, .number (isLongest_numeral_iff.mp htext) hnext⟩
  | malformed hinput _ htext hnext hword =>
      subst hinput
      obtain ⟨c, word, rfl, hc, hword, hstop⟩ := exists_cons_of_isLongest hnext hword
      exact ⟨(List.append_assoc ..).symm,
        .malformed (isLongest_numeral_iff.mp htext) hc hword hstop⟩
  | keyword hinput hstart htext hword =>
      subst hinput
      refine ⟨rfl, spells_word hstart htext ?_⟩
      rw [ofKeyword?_eq_some_iff.mpr hword]
      rfl
  | identifier hinput hstart htext hword =>
      subst hinput
      refine ⟨rfl, spells_word hstart htext ?_⟩
      rw [ofKeyword?_eq_none_iff.mpr hword]
      rfl
  | string hinput htext =>
      obtain ⟨body, rfl, hbody⟩ := htext
      exact ⟨hinput, .string (isQuotable_iff.mpr hbody)⟩
  | unterminated hinput hstart hnone htext =>
      subst hinput
      exact ⟨rfl, spells_unterminated hstart hnone htext⟩
  | longSymbol hinput hkind hname =>
      obtain ⟨c, short, rfl, hc⟩ := longSymbol_cases hkind hname
      exact ⟨hinput, .long hc⟩
  | symbol hinput hkind hname hequal hpoint =>
      refine ⟨hinput, ?_⟩
      rcases symbol_cases hkind hname with hc | ⟨⟨long, hc⟩, hmem⟩ | ⟨rfl, rfl⟩
      · exact .single hc
      · exact .short hc (hequal hmem)
      · exact .dot (hpoint rfl)
  | unexpected hinput hdigit hletter hquote hsymbol =>
      exact ⟨hinput, .unexpected (isUnexpected_iff.mpr ⟨hdigit, hletter, hquote, hsymbol⟩)⟩

theorem isRun_word {c : Char} {word : List Char} (hc : isLetter c = true)
    (hword : ∀ d ∈ word, isWordChar d = true) : IsRun isWordChar (c :: word) :=
  List.forall_mem_cons.mpr ⟨by simp [isWordChar, hc], hword⟩

theorem follows_word {c : Char} {word : List Char} (hc : isLetter c = true)
    (hword : ∀ d ∈ word, isWordChar d = true) (hnext : rest.head?.any isWordChar = false) :
    Follows (c :: word ++ rest)
      ⟨.ok ((TokenKind.ofKeyword? (String.ofList (c :: word))).getD .identifier), c :: word,
        rest⟩ := by
  have htext := isLongest_run_iff.mpr ⟨isRun_word hc hword, hnext⟩
  cases hkind : TokenKind.ofKeyword? (String.ofList (c :: word)) with
  | some kind => exact .keyword rfl hc htext (ofKeyword?_eq_some_iff.mp hkind)
  | none => exact .identifier rfl hc htext (ofKeyword?_eq_none_iff.mp hkind)

theorem follows_unterminated {body : List Char} (hbody : ∀ c ∈ body, isQuotable c = true)
    (hnext : rest.head? = none ∨ rest.head? = some '\n') :
    Follows ('"' :: body ++ rest) ⟨.error .unterminatedString, '"' :: body, rest⟩ := by
  refine .unterminated rfl rfl (fun other => not_isStringText_of_unterminated hbody hnext)
    (isLongest_run_iff.mpr ⟨?_, ?_⟩)
  · refine List.forall_mem_cons.mpr ⟨by decide, fun c hc => ?_⟩
    exact (Bool.and_eq_true_iff.mp (hbody c hc)).2
  · rcases hnext with hnext | hnext
    all_goals
      rw [hnext]
      rfl

theorem follows_of_spells {kind : Except LexError TokenKind}
    (hspells : Spells kind text rest.head?) : Follows (text ++ rest) ⟨kind, text, rest⟩ := by
  cases hspells with
  | single hc =>
      obtain ⟨hkind, hname, hequal, hpoint⟩ := mem_symbols_of_single? hc
      exact .symbol rfl hkind hname (fun hmem => absurd hmem hequal) (fun heq => absurd heq hpoint)
  | short hc hnext =>
      obtain ⟨⟨hkind, hname, hpoint⟩, _⟩ := mem_symbols_of_withEqual? hc
      exact .symbol rfl hkind hname (fun _ => hnext) (fun heq => absurd heq hpoint)
  | long hc =>
      obtain ⟨_, hkind, hname⟩ := mem_symbols_of_withEqual? hc
      exact .longSymbol rfl hkind hname
  | dot hnext =>
      have hequal : '.' ∉ extensible := by decide
      refine @Follows.symbol _ .dot _ _ rfl ?_ ?_ (fun hmem => absurd hmem hequal) (fun _ => hnext)
      · decide
      · decide
  | number htext hnext =>
      exact .number rfl (startsNumeral_of_isNumeral htext) (isLongest_numeral_iff.mpr htext) hnext
  | @malformed text c word _ htext hc hword hnext =>
      have hnumeral : IsNumeral text (c :: word ++ rest).head? := htext
      have hlongest := isLongest_numeral_iff.mpr hnumeral
      have hstart := startsNumeral_of_isNumeral hnumeral
      rw [List.append_assoc]
      have hrun := isLongest_run_iff.mpr ⟨isRun_word hc hword, hnext⟩
      exact .malformed rfl hstart hlongest hc hrun
  | word hc hword hnext => exact follows_word hc hword hnext
  | string hbody => exact .string rfl ⟨_, rfl, isQuotable_iff.mp hbody⟩
  | unterminated hbody hnext => exact follows_unterminated hbody hnext
  | unexpected hc =>
      obtain ⟨hdigit, hletter, hquote, hsymbol⟩ := isUnexpected_iff.mp hc
      exact .unexpected rfl hdigit hletter hquote hsymbol

/-- The rule determines the lexeme, and it is the one that is read. -/
theorem follows_iff_eq_read {c : Char} {cs : List Char} :
    Follows (c :: cs) lexeme ↔ lexeme = read c cs := by
  constructor
  · intro hfollows
    obtain ⟨hinput, hspells⟩ := spells_of_follows hfollows
    obtain ⟨kind, text, rest⟩ := lexeme
    obtain ⟨d, ds, rfl⟩ := List.exists_cons_of_ne_nil hspells.ne_nil
    obtain ⟨rfl, rfl⟩ := List.cons.inj hinput
    exact (read_of_spells hspells rfl).symm
  · rintro rfl
    rw [← read_append c cs]
    exact follows_of_spells (spells_read c cs)

end Follows

/-! ## Texts that stand alone -/

/-- A numeral, a name or a string, and its kind. -/
inductive IsWhole : TokenKind → List Char → Prop
  | number {text : List Char} (htext : IsNumeralText text) : IsWhole .number text
  | keyword {kind : TokenKind} {text : List Char} (htext : IsWordText text)
      (hword : (String.ofList text, kind) ∈ reserved) : IsWhole kind text
  | identifier {text : List Char} (htext : IsWordText text)
      (hword : ∀ kind, (String.ofList text, kind) ∉ reserved) :
      IsWhole .identifier text
  | string {text : List Char} (htext : IsStringText text) : IsWhole .string text

section Whole

variable {kind : TokenKind} {text : List Char}

theorem isLongest_self {P : List Char → Prop} (htext : P text) : IsLongest P text text where
  isPrefix := List.prefix_rfl
  mem := htext
  length_le _ hother _ := hother.length_le

theorem IsNumeralText.startsNumeral (htext : IsNumeralText text) : StartsNumeral text := by
  have hlongest : IsLongest IsNumeralText text (text ++ []) := by
    rw [List.append_nil]
    exact isLongest_self htext
  have hstarts := startsNumeral_of_isNumeral (isLongest_numeral_iff.mp hlongest)
  rwa [List.append_nil] at hstarts

/-- A text that stands alone is the lexeme at its front. -/
theorem IsWhole.follows (htext : IsWhole kind text) : Follows text ⟨.ok kind, text, []⟩ := by
  have hinput : text = text ++ [] := (List.append_nil text).symm
  cases htext with
  | number htext => exact .number hinput htext.startsNumeral (isLongest_self htext) rfl
  | keyword htext hword => exact .keyword hinput htext.head (isLongest_self htext.run) hword
  | identifier htext hword => exact .identifier hinput htext.head (isLongest_self htext.run) hword
  | string htext => exact .string hinput htext

theorem startsToken_of_isWordChar {c : Char} (hc : isWordChar c = true) : Lexer.StartsToken c := by
  have hne : ∀ d, isWordChar d = false → c ≠ d := by
    rintro d hd rfl
    simp [hc] at hd
  have hblank : c ≠ ' ' ∧ c ≠ '\t' ∧ c ≠ '\r' ∧ c ≠ '\n' :=
    ⟨hne _ (by decide), hne _ (by decide), hne _ (by decide), hne _ (by decide)⟩
  exact ⟨by simp [Lexer.isBlank, hblank], hne _ (by decide)⟩

theorem IsWordText.startsToken (htext : IsWordText text) :
    ∀ c ∈ text.head?, Lexer.StartsToken c := by
  intro c hc
  exact startsToken_of_isWordChar (htext.run c (List.mem_of_mem_head? hc))

theorem StartsNumeral.startsToken (hstart : StartsNumeral text) :
    ∀ c ∈ text.head?, Lexer.StartsToken c := by
  intro c hc
  rcases hstart with hdigit | ⟨d, rest, rfl, _⟩
  · rw [Option.mem_def.mp hc] at hdigit
    have hdigit : isDigit c = true := hdigit
    exact startsToken_of_isWordChar (by simp [isWordChar, hdigit])
  · obtain rfl : '.' = c := Option.some.inj hc
    exact ⟨rfl, by decide⟩

theorem IsWhole.startsToken (htext : IsWhole kind text) :
    ∀ c ∈ text.head?, Lexer.StartsToken c := by
  cases htext with
  | number htext => exact htext.startsNumeral.startsToken
  | keyword htext _ => exact htext.startsToken
  | identifier htext _ => exact htext.startsToken
  | string htext =>
      obtain ⟨body, rfl, _⟩ := htext
      intro c hc
      obtain rfl : '"' = c := Option.some.inj hc
      exact ⟨rfl, by decide⟩

end Whole

end Lexeme

namespace Lexer

/-! ## Tokens -/

/-- At a token, a lexer hands out the lexeme that follows the rule. -/
theorem next_eq_of_follows {lexer : Lexer} {gap input : List Char} {lexeme : Lexeme}
    (hrest : lexer.rest = gap ++ input) (hgap : Gap gap input)
    (hline : lexer.pending = true → '\n' ∉ gap) (hstart : ∀ c ∈ input.head?, StartsToken c)
    (hfollows : Lexeme.Follows input lexeme) :
    lexer.next = (lexeme.token (lexer.pos.afterAll gap),
      ⟨lexeme.rest, (lexer.pos.afterAll gap).afterAll lexeme.text,
        (lexeme.token (lexer.pos.afterAll gap)).kind.endsStatement⟩) := by
  obtain ⟨rfl, hspells⟩ := Lexeme.spells_of_follows hfollows
  rw [List.head?_append_of_ne_nil _ hspells.ne_nil] at hstart
  obtain ⟨rest, pos, pending⟩ := lexer
  obtain rfl : rest = gap ++ (lexeme.text ++ lexeme.rest) := hrest
  exact (Yields.lexeme hgap hline hstart hspells).next_eq

/-- At the end of a script a semicolon is inserted, if one may stand there. -/
def closing (pos : Pos) (pending : Bool) : List Token :=
  (if pending then [⟨.semicolon, "", pos⟩] else []) ++ [⟨.eof, "", pos⟩]

theorem Scans.exists_cons {lexer after : Lexer} {token : Token} {tokens : List Token}
    (hscans : lexer.Scans tokens) (hnext : lexer.next = (token, after)) (hne : token.kind ≠ .eof) :
    ∃ others, tokens = token :: others ∧ after.Scans others := by
  cases hscans with
  | eof heof =>
      rw [hnext] at heof
      contradiction
  | @cons _ others _ hrest =>
      rw [hnext] at hrest ⊢
      exact ⟨others, rfl, hrest⟩

theorem Scans.eq_closing {pos : Pos} {pending : Bool} {tokens : List Token}
    (hscans : Scans ⟨[], pos, pending⟩ tokens) : tokens = closing pos pending := by
  have heof : ∀ {tokens}, Scans ⟨[], pos, false⟩ tokens → tokens = [⟨.eof, "", pos⟩] := by
    intro tokens hscans
    cases hscans with
    | eof _ => rfl
    | cons hnext _ => exact absurd rfl hnext
  cases pending with
  | false => exact heof hscans
  | true =>
      obtain ⟨others, rfl, hothers⟩ := hscans.exists_cons rfl (by simp)
      rw [heof hothers]
      rfl

end Lexer

/-- A text that stands alone is one token. -/
theorem Token.ofSource_of_isWhole {kind : TokenKind} {text : List Char}
    (htext : Lexeme.IsWhole kind text) :
    (ofSource (String.ofList text)).toList =
      ⟨kind, String.ofList text, .start⟩ ::
        Lexer.closing (Pos.start.afterAll text) kind.endsStatement := by
  have hrest : (Lexer.ofString (String.ofList text)).rest = [] ++ text := String.toList_ofList
  have hnext := Lexer.next_eq_of_follows hrest .nil (by simp) htext.startsToken htext.follows
  have hne := (Lexeme.spells_of_follows htext.follows).2.kind_token_ne_eof .start
  obtain ⟨others, htokens, hothers⟩ := (scans_ofSource (String.ofList text)).exists_cons hnext hne
  rw [htokens, hothers.eq_closing]
  rfl

/-- Tokens follow the lexical grammar by the longest match. Behind a gap, exactly one lexeme follows
the rule, and it is handed out; numerals, names and strings that stand alone are whole tokens. -/
theorem longest_match :
    (∀ (lexer : Lexer) (gap input : List Char), lexer.rest = gap ++ input → Lexer.Gap gap input →
        (lexer.pending = true → '\n' ∉ gap) → input ≠ [] →
        (∀ c ∈ input.head?, Lexer.StartsToken c) →
        ∃ lexeme, (∀ other, Lexeme.Follows input other ↔ other = lexeme) ∧
          lexer.next.1 = lexeme.token (lexer.pos.afterAll gap) ∧
          lexer.next.2.rest = lexeme.rest ∧ lexeme.text ++ lexeme.rest = input) ∧
      ∀ kind text, Lexeme.IsWhole kind text →
        (Token.ofSource (String.ofList text)).toList =
          ⟨kind, String.ofList text, .start⟩ ::
            Lexer.closing (Pos.start.afterAll text) kind.endsStatement := by
  refine ⟨fun lexer gap input hrest hgap hline hne hstart => ?_,
    fun kind text => Token.ofSource_of_isWhole⟩
  obtain ⟨c, cs, rfl⟩ := List.exists_cons_of_ne_nil hne
  have hfollows : Lexeme.Follows (c :: cs) (Lexeme.read c cs) := Lexeme.follows_iff_eq_read.mpr rfl
  have hnext := Lexer.next_eq_of_follows hrest hgap hline hstart hfollows
  exact ⟨Lexeme.read c cs, fun other => Lexeme.follows_iff_eq_read, by rw [hnext], by rw [hnext],
    Lexeme.read_append c cs⟩

/-- A numeral may end with its point or start with it. -/
theorem longest_match_point :
    (∃ lexeme, (∀ other, Lexeme.Follows "11.a0;".toList other ↔ other = lexeme) ∧
        (Lexer.ofString " 11.a0;").next.1 = lexeme.token ⟨1, 2⟩ ∧
        (Lexer.ofString " 11.a0;").next.2.rest = lexeme.rest ∧
        lexeme.text ++ lexeme.rest = "11.a0;".toList) ∧
      (Token.ofSource ".5").toList = ⟨.number, ".5", ⟨1, 1⟩⟩ :: Lexer.closing ⟨1, 3⟩ true := by
  obtain ⟨hnext, hwhole⟩ := longest_match
  constructor
  · refine hnext (Lexer.ofString " 11.a0;") [' '] "11.a0;".toList ?_ (.blank rfl .nil) (by simp)
      ?_ ?_
    · decide +kernel
    · decide +kernel
    · intro c hc
      obtain rfl : '1' = c := Option.some.inj hc
      exact ⟨rfl, by decide⟩
  · have hpart : Lexeme.IsRun isDigit ['5'] := by simp [Lexeme.IsRun, isDigit]
    exact hwhole .number ['.', '5'] (.number (.fraction hpart (by simp)))

end Scriptlet
