import Scriptlet.Text.Alphabetic
import Scriptlet.Token.Kind

/-! # Lexemes

The lexeme at the front of a script: the longest run of characters that forms one, what kind it is,
and what follows it. Blanks, comments and line ends are not lexemes; a caller skips them first.
-/

namespace Scriptlet

/-- Why characters form no token. -/
inductive LexError where
  /-- A letter right after a numeral. -/
  | malformedNumber
  /-- A line that ends inside a string. -/
  | unterminatedString
  | unexpectedCharacter
deriving DecidableEq, Repr

def LexError.message : LexError → String
  | .malformedNumber => "malformed number literal"
  | .unterminatedString => "unterminated string"
  | .unexpectedCharacter => "unexpected character"

/-- Digits are ASCII digits only. -/
def isDigit (c : Char) : Bool :=
  '0' ≤ c && c ≤ '9'

def isLetter (c : Char) : Bool :=
  Text.isAlphabetic c || c == '_'

def isWordChar (c : Char) : Bool :=
  isLetter c || isDigit c

/-- What stands at the front of some input, and what follows it there. -/
structure Lexeme where
  kind : Except LexError TokenKind
  text : List Char
  rest : List Char

namespace Lexeme

/-- A numeral whose characters have been read; a word that runs into it spoils it and is taken
along. -/
def numeral (text rest : List Char) : Lexeme :=
  if rest.head?.any isLetter then
    ⟨.error .malformedNumber, text ++ rest.takeWhile isWordChar, rest.dropWhile isWordChar⟩
  else ⟨.ok .number, text, rest⟩

/-- A numeral from its point on, where `text` ends with the point. -/
def fraction (text rest : List Char) : Lexeme :=
  numeral (text ++ rest.takeWhile isDigit) (rest.dropWhile isDigit)

/-- A numeral that starts with the digit `c`. -/
def number (c : Char) (cs : List Char) : Lexeme :=
  let whole := c :: cs.takeWhile isDigit
  match cs.dropWhile isDigit with
  | '.' :: rest => fraction (whole ++ ['.']) rest
  | rest => numeral whole rest

/-- A word that starts with the letter `c`. -/
def word (c : Char) (cs : List Char) : Lexeme :=
  let text := c :: cs.takeWhile isWordChar
  let kind := (TokenKind.ofKeyword? (String.ofList text)).getD .identifier
  ⟨.ok kind, text, cs.dropWhile isWordChar⟩

/-- What may stand in a string, which ends on its own line. -/
def isQuotable (c : Char) : Bool :=
  c != '"' && c != '\n'

/-- A string whose opening quote has been read. -/
def quoted (cs : List Char) : Lexeme :=
  let text := '"' :: cs.takeWhile isQuotable
  match cs.dropWhile isQuotable with
  | '"' :: rest => ⟨.ok .string, text ++ ['"'], rest⟩
  | rest => ⟨.error .unterminatedString, text, rest⟩

/-- The token that a character is by itself, whatever follows. -/
def single? : Char → Option TokenKind
  | '(' => some .leftParen
  | ')' => some .rightParen
  | '{' => some .leftBrace
  | '}' => some .rightBrace
  | ',' => some .comma
  | '-' => some .minus
  | '+' => some .plus
  | ';' => some .semicolon
  | '/' => some .slash
  | '*' => some .star
  | ':' => some .colon
  | _ => none

/-- The token that a character is by itself, and the one that it makes with an equals sign. -/
def withEqual? : Char → Option (TokenKind × TokenKind)
  | '!' => some (.bang, .bangEqual)
  | '=' => some (.equal, .equalEqual)
  | '<' => some (.less, .lessEqual)
  | '>' => some (.greater, .greaterEqual)
  | _ => none

/-- The operator `c`, or the longer one if an equals sign follows. -/
def operator (c : Char) (short long : TokenKind) : List Char → Lexeme
  | '=' :: rest => ⟨.ok long, [c, '='], rest⟩
  | rest => ⟨.ok short, [c], rest⟩

/-- A point, which starts a numeral if a digit follows. -/
def point (cs : List Char) : Lexeme :=
  if cs.head?.any isDigit then fraction ['.'] cs else ⟨.ok .dot, ['.'], cs⟩

/-- The lexeme at the front of `c :: cs`. -/
def read (c : Char) (cs : List Char) : Lexeme :=
  match single? c, withEqual? c with
  | some kind, _ => ⟨.ok kind, [c], cs⟩
  | none, some (short, long) => operator c short long cs
  | none, none =>
    if c = '.' then point cs
    else if c = '"' then quoted cs
    else if isDigit c then number c cs
    else if isLetter c then word c cs
    else ⟨.error .unexpectedCharacter, [c], cs⟩

/-! ## Nothing is lost -/

theorem numeral_append (text rest : List Char) :
    (numeral text rest).text ++ (numeral text rest).rest = text ++ rest := by
  unfold numeral
  split <;> simp [List.takeWhile_append_dropWhile]

theorem fraction_append (text rest : List Char) :
    (fraction text rest).text ++ (fraction text rest).rest = text ++ rest := by
  simp [fraction, numeral_append, List.takeWhile_append_dropWhile]

theorem number_append (c : Char) (cs : List Char) :
    (number c cs).text ++ (number c cs).rest = c :: cs := by
  have hsplit := List.takeWhile_append_dropWhile (p := isDigit) (l := cs)
  unfold number
  split
  next rest hrest =>
    rw [hrest] at hsplit
    simpa [fraction_append] using hsplit
  next => rw [numeral_append, List.cons_append, hsplit]

theorem word_append (c : Char) (cs : List Char) :
    (word c cs).text ++ (word c cs).rest = c :: cs := by
  simp [word, List.takeWhile_append_dropWhile]

theorem quoted_append (cs : List Char) :
    (quoted cs).text ++ (quoted cs).rest = '"' :: cs := by
  have hsplit := List.takeWhile_append_dropWhile (p := isQuotable) (l := cs)
  unfold quoted
  split
  next rest hrest =>
    rw [hrest] at hsplit
    simpa using hsplit
  next => rw [List.cons_append, hsplit]

theorem operator_append (c : Char) (short long : TokenKind) (cs : List Char) :
    (operator c short long cs).text ++ (operator c short long cs).rest = c :: cs := by
  unfold operator
  split <;> rfl

theorem point_append (cs : List Char) : (point cs).text ++ (point cs).rest = '.' :: cs := by
  unfold point
  split
  · exact fraction_append ['.'] cs
  · rfl

/-- A lexeme and what follows it make up the input. -/
theorem read_append (c : Char) (cs : List Char) :
    (read c cs).text ++ (read c cs).rest = c :: cs := by
  unfold read
  split
  · rfl
  · exact operator_append ..
  · split
    next h => rw [point_append, h]
    next =>
      split
      next h => rw [quoted_append, h]
      next =>
        split
        · exact number_append c cs
        · split
          · exact word_append c cs
          · rfl

end Lexeme

end Scriptlet
