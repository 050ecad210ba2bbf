import Scriptlet.Proofs.Acceptance
import Scriptlet.Proofs.ConstantTable
import Scriptlet.Proofs.Lowering.Basic
import Scriptlet.Proofs.SignedNumerals
import Scriptlet.Value.Text

/-! # The texts of constants

A string ends on the line on which it starts, and no other lexeme holds a line end either. The
constants of a script are its names and literals, so the text of each of them stays on one line.
-/

namespace Scriptlet

theorem notMem_of_forall {p : Char → Bool} {c : Char} {text : List Char}
    (htext : ∀ d ∈ text, p d = true) (hc : p c = false) : c ∉ text := by
  intro hmem
  rw [htext _ hmem] at hc
  contradiction

/-! ## Lexemes -/

namespace Lexeme

theorem newline_notMem_word {c : Char} {word : List Char} (hc : isLetter c = true)
    (hword : ∀ d ∈ word, isWordChar d = true) : '\n' ∉ c :: word := by
  have hall : ∀ d ∈ c :: word, isWordChar d = true :=
    List.forall_mem_cons.mpr ⟨by simp [isWordChar, hc], hword⟩
  exact notMem_of_forall hall (by decide)

theorem IsNumeral.newline_notMem {text : List Char} {next : Option Char}
    (htext : IsNumeral text next) : '\n' ∉ text := by
  have hdigit : isDigit '\n' = false := by decide
  cases htext with
  | whole hdigits _ _ _ => exact notMem_of_forall hdigits hdigit
  | fraction hwhole hpart _ _ =>
      simp [notMem_of_forall hwhole hdigit, notMem_of_forall hpart hdigit]

/-- A lexeme ends on the line on which it starts. -/
theorem Spells.newline_notMem {kind : Except LexError TokenKind} {text : List Char}
    {next : Option Char} (htext : Spells kind text next) (hstart : text.head? ≠ some '\n') :
    '\n' ∉ text := by
  have hquotable : isQuotable '\n' = false := by decide
  cases htext with
  | single | short | unexpected => simpa [eq_comm] using hstart
  | long => simpa [eq_comm] using hstart
  | dot => decide
  | number htext => exact htext.newline_notMem
  | malformed htext hc hword =>
      exact List.not_mem_append htext.newline_notMem (newline_notMem_word hc hword)
  | word hc hword => exact newline_notMem_word hc hword
  | string hbody => simp [notMem_of_forall hbody hquotable]
  | unterminated hbody => simp [notMem_of_forall hbody hquotable]

end Lexeme

/-! ## Tokens -/

theorem LexError.newline_notMem_message (e : LexError) : '\n' ∉ e.message.toList := by
  cases e <;> decide

/-- Only a semicolon that stands for a line end holds one. -/
theorem Lexer.Yields.newline_notMem {lexer after : Lexer} {token : Token}
    (hyields : lexer.Yields token after) (hkind : token.kind ≠ .semicolon) :
    '\n' ∉ token.lexeme.toList := by
  cases hyields with
  | atEnd => simp
  | lineEnd => contradiction
  | @lexeme gap lexeme pos pending hgap hline hstart hspells =>
      have hhead : lexeme.text.head? ≠ some '\n' := by
        intro hhead
        exact absurd (hstart _ hhead).1 (by decide)
      unfold Lexeme.token
      split
      next => simpa using hspells.newline_notMem hhead
      next e _ => exact e.newline_notMem_message

theorem Lexer.Scans.newline_notMem {lexer : Lexer} {tokens : List Token}
    (hscans : lexer.Scans tokens) :
    ∀ token ∈ tokens, token.kind ≠ .semicolon → '\n' ∉ token.lexeme.toList := by
  induction hscans with
  | @eof lexer _ =>
      rw [List.forall_mem_singleton]
      exact lexer.yields_next.newline_notMem
  | @cons lexer tokens _ _ ih =>
      rw [List.forall_mem_cons]
      exact ⟨lexer.yields_next.newline_notMem, ih⟩

/-! ## Constants -/

/-- The constant that a token may need: a name, or the value that it denotes. -/
def Token.constant? (token : Token) : Option Value :=
  if token.kind = .identifier then some (.str token.lexeme) else token.literal?

theorem Token.newline_notMem_of_constant? {token : Token} {s : String}
    (hline : token.kind ≠ .semicolon → '\n' ∉ token.lexeme.toList)
    (hconstant : token.constant? = some (.str s)) : '\n' ∉ s.toList := by
  unfold constant? literal? at hconstant
  split at hconstant
  next hkind =>
    obtain rfl := Value.str.inj (Option.some.inj hconstant)
    exact hline (by simp [hkind])
  next =>
    split at hconstant
    next =>
      have hnumber := Value.isNumber_ofNumeral token.lexeme.toList
      rw [Option.some.inj hconstant] at hnumber
      simp [Value.IsNumber, Value.type] at hnumber
    next hkind =>
      -- a string without its quotes is part of the lexeme
      obtain rfl := Value.str.inj (Option.some.inj hconstant)
      have hquoted := hline (by simp [hkind])
      rw [Parser.unquote, String.toList_ofList]
      exact fun hmem => hquoted (List.mem_of_mem_tail (List.mem_of_mem_dropLast hmem))
    all_goals simp at hconstant

section Derivations

variable {P : Value → Prop}

/-- The constant of a token, if it has one, has a property. -/
def Token.ConstantHas (P : Value → Prop) (token : Token) : Prop :=
  ∀ value, token.constant? = some value → P value

theorem Token.ConstantHas.of_name {name : Token} (hhas : name.ConstantHas P)
    (hname : name.kind = .identifier) : P (.str name.lexeme) :=
  hhas _ (if_pos hname)

theorem Token.ConstantHas.of_pooledName {name : Token} (hhas : name.ConstantHas P)
    (hname : name.kind = .identifier) (locals : List String) :
    ∀ value ∈ Blocks.pooledName locals name.lexeme, P value := by
  unfold Blocks.pooledName
  split
  · exact List.forall_mem_nil _
  · exact List.forall_mem_singleton.mpr (hhas.of_name hname)

theorem Token.ConstantHas.of_literal {token : Token} (hhas : token.ConstantHas P) {value : Value}
    (hvalue : token.Denotes value) : P value := by
  rw [denotes_iff] at hvalue
  refine hhas value ?_
  rw [constant?, if_neg, hvalue]
  intro hkind
  simp [literal?, hkind] at hvalue

variable {tokens : List Token}

theorem Expr.Derives.forall_constants {level : Level} {e : Expr}
    (he : Derives level tokens e) (htokens : ∀ token ∈ tokens, token.ConstantHas P)
    (locals : List String) : ∀ value ∈ e.constants locals, P value := by
  induction he with
  | stronger _ ih => exact ih htokens
  | assign hname _ _ ih =>
      simp only [List.forall_mem_cons] at htokens
      obtain ⟨hhas, _, htokens⟩ := htokens
      exact List.forall_mem_append.mpr ⟨hhas.of_pooledName hname locals, ih htokens⟩
  | binary _ _ _ ihl ihr =>
      simp only [List.forall_mem_append, List.forall_mem_cons] at htokens
      obtain ⟨hleft, _, hright⟩ := htokens
      exact List.forall_mem_append.mpr ⟨ihl hleft, ihr hright⟩
  | unary _ _ ih => exact ih (List.forall_mem_cons.mp htokens).2
  | group _ _ _ ih =>
      simp only [List.forall_mem_append, List.forall_mem_cons] at htokens
      exact ih htokens.1.2
  | var hname => exact (List.forall_mem_singleton.mp htokens).of_pooledName hname locals
  | @literal token value hvalue =>
      have hliteral := (List.forall_mem_singleton.mp htokens).of_literal hvalue
      cases value with
      | nil | bool => exact List.forall_mem_nil _
      | int | float | str => exact List.forall_mem_singleton.mpr hliteral

theorem Expr.DerivesOptional.forall_constants {e : Option Expr} (he : DerivesOptional tokens e)
    (htokens : ∀ token ∈ tokens, token.ConstantHas P) (locals : List String) :
    ∀ value ∈ Expr.constantsOptional locals e, P value := by
  cases e with
  | none => exact List.forall_mem_nil _
  | some e => exact Expr.Derives.forall_constants he htokens locals

theorem Expr.DerivesInitial.forall_constants {e : Option Expr} (he : DerivesInitial tokens e)
    (htokens : ∀ token ∈ tokens, token.ConstantHas P) (locals : List String) :
    ∀ value ∈ Expr.constantsOptional locals e, P value := by
  cases e with
  | none => exact List.forall_mem_nil _
  | some e =>
      obtain ⟨equal, value, rfl, _, he⟩ := he
      exact he.forall_constants (List.forall_mem_cons.mp htokens).2 locals

/-- What holds of the constants of the tokens holds of all constants of statements. -/
theorem Stmt.Derives.forall_constants {body : List Stmt} (hbody : Stmt.Derives tokens body)
    (htokens : ∀ token ∈ tokens, token.ConstantHas P) (blocks : Blocks) :
    ∀ value ∈ Stmt.constantsAll blocks body, P value := by
  induction hbody generalizing blocks with
  | nil => exact List.forall_mem_nil _
  | expr he _ _ ih =>
      simp only [List.forall_mem_append, List.forall_mem_cons] at htokens
      obtain ⟨htokens, _, hrest⟩ := htokens
      exact List.forall_mem_append.mpr ⟨he.forall_constants htokens _, ih hrest _⟩
  | print _ _ hargument _ _ _ ih =>
      simp only [List.forall_mem_append, List.forall_mem_cons] at htokens
      obtain ⟨⟨_, _, htokens⟩, _, _, hrest⟩ := htokens
      exact List.forall_mem_append.mpr ⟨hargument.forall_constants htokens _, ih hrest _⟩
  | decl _ hname hinitial _ _ ih =>
      simp only [List.forall_mem_append, List.forall_mem_cons] at htokens
      obtain ⟨⟨_, hhas, htokens⟩, _, hrest⟩ := htokens
      refine List.forall_mem_append.mpr ⟨List.forall_mem_append.mpr ⟨?_, ?_⟩, ih hrest _⟩
      · split
        · exact List.forall_mem_singleton.mpr (hhas.of_name hname)
        · exact List.forall_mem_nil _
      · exact hinitial.forall_constants htokens _
  | block _ _ _ _ ihInner ih =>
      simp only [List.forall_mem_append, List.forall_mem_cons] at htokens
      obtain ⟨⟨_, htokens⟩, _, hrest⟩ := htokens
      exact List.forall_mem_append.mpr ⟨ihInner htokens _, ih hrest _⟩

theorem Program.Derives.forall_constants {program : Program}
    (hprogram : Program.Derives tokens program)
    (htokens : ∀ token ∈ tokens, token.ConstantHas P) : ∀ value ∈ program.constants, P value := by
  obtain ⟨hbody, _⟩ := hprogram
  exact hbody.forall_constants (List.forall_mem_append.mp htokens).1 []

end Derivations

/-! ## Texts -/

namespace Decimal

theorem toList_toString (n : Nat) : (toString n).toList = Nat.toDigits 10 n := by
  simp [toString]

theorem notMem_toDigits {c : Char} (hc : isDigit c = false) (n : Nat) : c ∉ Nat.toDigits 10 n :=
  notMem_of_forall (fun _ => isDigit_of_mem_toDigits) hc

theorem newline_notMem_toDigits (n : Nat) : '\n' ∉ Nat.toDigits 10 n :=
  notMem_toDigits (by decide) n

theorem newline_notMem_int (n : Int) : '\n' ∉ (toString n).toList := by
  cases n with
  | ofNat k => simpa [toString, Int.repr] using newline_notMem_toDigits k
  | negSucc k => simpa [toString, Int.repr] using newline_notMem_toDigits (k + 1)

namespace Scientific

variable (d : Scientific)

theorem newline_notMem_digits : '\n' ∉ d.digits := by
  rw [digits, toList_toString]
  exact newline_notMem_toDigits _

theorem newline_notMem_positional : '\n' ∉ d.positional := by
  have hdigits := d.newline_notMem_digits
  have htake : ∀ n, '\n' ∉ d.digits.take n := fun _ hmem => hdigits (List.mem_of_mem_take hmem)
  have hdrop : ∀ n, '\n' ∉ d.digits.drop n := fun _ hmem => hdigits (List.mem_of_mem_drop hmem)
  unfold positional
  split
  · simp [hdigits, zeros]
  · split
    · simp [htake, hdrop]
    · simp [hdigits, zeros]

theorem newline_notMem_exponential : '\n' ∉ d.exponential := by
  have hdigits := d.newline_notMem_digits
  have hexponent := newline_notMem_int d.magnitude
  unfold exponential
  simp only [List.mem_append, List.mem_cons, not_or]
  refine ⟨?_, by decide, hexponent⟩
  split
  next first second rest heq =>
    rw [heq] at hdigits
    simpa using hdigits
  next => exact hdigits

end Scientific

theorem Layout.newline_notMem_scientific (layout : Layout) (d : Scientific) :
    '\n' ∉ (layout.scientific d).toList := by
  unfold scientific
  split
  · rw [String.toList_ofList]
    exact d.newline_notMem_positional
  · rw [String.toList_ofList]
    exact d.newline_notMem_exponential

end Decimal

namespace Value

theorem newline_notMem_float (x : Float) : '\n' ∉ (floatLayout.float x).toList := by
  have hsigned : ∀ (negative : Prop) [Decidable negative] {digits : String},
      '\n' ∉ digits.toList → '\n' ∉ ((if negative then "-" else "") ++ digits).toList := by
    intro negative _ digits hdigits
    split
    · simpa using hdigits
    · simpa using hdigits
  unfold Decimal.Layout.float
  dsimp only
  split
  · decide
  split
  · exact hsigned _ (by decide)
  split
  · exact hsigned _ (by decide)
  · exact hsigned _ (floatLayout.newline_notMem_scientific _)

/-- Only a string may have a text of several lines. -/
theorem newline_notMem_text {value : Value} (hstring : ∀ s, value = .str s → '\n' ∉ s.toList) :
    '\n' ∉ value.text.toList := by
  cases value with
  | nil => decide
  | bool b => cases b <;> decide
  | int n => exact Decimal.newline_notMem_int n.toInt
  | float x => exact newline_notMem_float x
  | str s => exact hstring s rfl

end Value

/-- The text of every constant of a script stays on one line. -/
theorem newline_notMem_of_compile {recovery : Bool} {source : String} {chunk : Chunk}
    (hcompile : compile recovery source = .ok chunk) {index : Nat} {value : Value}
    (hvalue : chunk.pool.get? index = some value) : '\n' ∉ value.text.toList := by
  obtain ⟨program, pool, hderives, _, hpool, rfl⟩ := compile_eq_ok_iff.mp hcompile
  have hmem : value ∈ program.constants := by
    obtain ⟨constant, hget, rfl⟩ := Option.map_eq_some_iff.mp hvalue
    have hheld : constant ∈ pool.held := Pool.mem_held_iff.mpr ⟨index, hget⟩
    rw [(Pool.held_of_addAll hpool Pool.compact_empty).2, Pool.held_empty, Finset.empty_union,
      Pool.standing, Finset.mem_image] at hheld
    obtain ⟨original, horiginal, rfl⟩ := hheld
    rwa [Constant.value_ofValue, ← List.mem_toFinset]
  refine hderives.forall_constants (P := fun value => '\n' ∉ value.text.toList)
    (fun token htoken value hconstant => ?_) value hmem
  apply Value.newline_notMem_text
  rintro s rfl
  exact Token.newline_notMem_of_constant?
    ((Token.scans_ofSource source).newline_notMem token htoken) hconstant

end Scriptlet
