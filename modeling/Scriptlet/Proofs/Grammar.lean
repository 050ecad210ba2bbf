import Mathlib.Algebra.Group.Nat.Defs
import Scriptlet.Program.Tree
import Scriptlet.Token.Basic

/-! # The grammar of scripts

Which tokens form an expression, a sequence of statements or a script, and as which tree. The
relations say nothing about how a script is read: levels, operators and literals are spelled out
here once more, token by token. They admit trees that are too deep, that break the scoping rules or
that need too many constants; what a tree needs is counted here as well.
-/

namespace Scriptlet

/-! ## Literals -/

/-- The number that digits denote, each by its place. -/
def Decimal.byPlaces : List Char → Nat
  | [] => 0
  | digit :: rest => (digit.toNat - '0'.toNat) * 10 ^ rest.length + byPlaces rest

/-- The value of a numeral: an integer without a point, as long as it has 64 bits, and otherwise the
nearest float. -/
inductive Value.IsNumeral : List Char → Value → Prop
  | int {digits} (hpoint : '.' ∉ digits) (hfits : Decimal.byPlaces digits < 2 ^ 63) :
      IsNumeral digits (.int (.ofNat (Decimal.byPlaces digits)))
  | large {digits} (hpoint : '.' ∉ digits) (hlarge : 2 ^ 63 ≤ Decimal.byPlaces digits) :
      IsNumeral digits (.float (.ofScientific (Decimal.byPlaces digits) false 0))
  | fraction {whole fraction} (hpoint : '.' ∉ whole) :
      IsNumeral (whole ++ '.' :: fraction)
        (.float (.ofScientific (Decimal.byPlaces (whole ++ fraction)) true fraction.length))

/-- The value that a token denotes by itself. That of a string is what stands between its first and
its last character, the quotes. -/
inductive Token.Denotes (token : Token) : Value → Prop
  | number {value} (hkind : token.kind = .number)
      (hvalue : Value.IsNumeral token.lexeme.toList value) : Denotes token value
  | string {s : String} (hkind : token.kind = .string)
      (htext : s.toList = (token.lexeme.toList.take (token.lexeme.length - 1)).drop 1) :
      Denotes token (.str s)
  | true (hkind : token.kind = .kwTrue) : Denotes token (.bool true)
  | false (hkind : token.kind = .kwFalse) : Denotes token (.bool false)
  | nil (hkind : token.kind = .kwNil) : Denotes token .nil

/-! ## Levels -/

namespace Expr

/-- The levels of expressions, weakest first. -/
inductive Level where
  | assign
  | equality
  | comparison
  | term
  | factor
  | unary
  | primary
deriving DecidableEq, Repr

namespace Level

/-- The next stronger level; the strongest is its own successor. -/
def next : Level → Level
  | .assign => .equality
  | .equality => .comparison
  | .comparison => .term
  | .term => .factor
  | .factor => .unary
  | .unary | .primary => .primary

/-- The binary operators of a level and the tokens that denote them. -/
def operators : Level → List (TokenKind × BinaryOp)
  | .equality => [(.equalEqual, .equal), (.bangEqual, .notEqual)]
  | .comparison =>
    [(.less, .less), (.lessEqual, .lessEqual), (.greater, .greater), (.greaterEqual, .greaterEqual)]
  | .term => [(.plus, .add), (.minus, .subtract)]
  | .factor => [(.star, .multiply), (.slash, .divide)]
  | .assign | .unary | .primary => []

end Level

/-- The operators in front of an operand and the tokens that denote them. -/
def signs : List (TokenKind × UnaryOp) := [(.minus, .negate), (.bang, .not)]

/-! ## Derivations -/

/-- The tokens of an expression whose operators outside parentheses bind at least as tightly as a
level. Assignment associates to the right and the binary operators to the left. -/
inductive Derives : Level → List Token → Expr → Prop
  /-- A level derives what the next stronger one does. -/
  | stronger {level tokens e} (he : Derives level.next tokens e) : Derives level tokens e
  | assign {name equal tokens e} (hname : name.kind = .identifier) (hequal : equal.kind = .equal)
      (he : Derives .assign tokens e) :
      Derives .assign (name :: equal :: tokens) (.assign name.lexeme e)
  | binary {level op sign left right l r} (hl : Derives level left l)
      (hsign : (sign.kind, op) ∈ level.operators) (hr : Derives level.next right r) :
      Derives level (left ++ sign :: right) (.binary op l r)
  | unary {op sign tokens e} (hsign : (sign.kind, op) ∈ signs) (he : Derives .unary tokens e) :
      Derives .unary (sign :: tokens) (.unary op e)
  | group {opening close tokens e} (hopening : opening.kind = .leftParen)
      (he : Derives .assign tokens e) (hclose : close.kind = .rightParen) :
      Derives .primary (opening :: tokens ++ [close]) (.group e close.pos)
  | var {name} (hname : name.kind = .identifier) :
      Derives .primary [name] (.var name.lexeme name.pos)
  | literal {token value} (hvalue : token.Denotes value) :
      Derives .primary [token] (.literal value token.pos)

end Expr

/-- The tokens of an expression that may be absent. -/
def Expr.DerivesOptional (tokens : List Token) : Option Expr → Prop
  | none => tokens = []
  | some e => Derives .assign tokens e

/-- The tokens between the name of a declaration and its semicolon. -/
def Expr.DerivesInitial (tokens : List Token) : Option Expr → Prop
  | none => tokens = []
  | some e => ∃ equal value, tokens = equal :: value ∧ equal.kind = .equal ∧ Derives .assign value e

/-- The tokens of a sequence of statements. -/
inductive Stmt.Derives : List Token → List Stmt → Prop
  | nil : Derives [] []
  | expr {tokens stop rest e body} (he : Expr.Derives .assign tokens e)
      (hstop : stop.kind = .semicolon) (hrest : Derives rest body) :
      Derives (tokens ++ stop :: rest) (.expr e stop.pos :: body)
  | print {word opening tokens close stop rest argument body} (hword : word.kind = .kwPrint)
      (hopening : opening.kind = .leftParen) (hargument : Expr.DerivesOptional tokens argument)
      (hclose : close.kind = .rightParen) (hstop : stop.kind = .semicolon)
      (hrest : Derives rest body) :
      Derives (word :: opening :: tokens ++ close :: stop :: rest)
        (.print argument opening.pos stop.pos :: body)
  | decl {word name tokens stop rest initial body} (hword : word.kind = .kwDecl)
      (hname : name.kind = .identifier) (hinitial : Expr.DerivesInitial tokens initial)
      (hstop : stop.kind = .semicolon) (hrest : Derives rest body) :
      Derives (word :: name :: tokens ++ stop :: rest)
        (.decl name.lexeme name.pos initial stop.pos :: body)
  | block {opening tokens close rest inner body} (hopening : opening.kind = .leftBrace)
      (hinner : Derives tokens inner) (hclose : close.kind = .rightBrace)
      (hrest : Derives rest body) :
      Derives (opening :: tokens ++ close :: rest) (.block inner close.pos :: body)

/-- The tokens of a script. -/
inductive Program.Derives : List Token → Program → Prop
  | intro {tokens stop body} (hbody : Stmt.Derives tokens body) (hstop : stop.kind = .eof) :
      Derives (tokens ++ [stop]) ⟨body, stop.pos⟩

/-! ## Nesting -/

/-- How many levels are open at once inside an expression, its own level apart. Parentheses, the
right side of an assignment, the operand of a prefix and the right operand of a binary operator open
a level each. -/
def Expr.nesting : Expr → Nat
  | .literal _ _ | .var _ _ => 0
  | .assign _ value => value.nesting + 1
  | .group inner _ => inner.nesting + 1
  | .unary _ operand => operand.nesting + 1
  | .binary _ left right => max left.nesting (right.nesting + 1)

/-- The levels that an expression opens in a statement. -/
def Expr.levels : Option Expr → Nat
  | none => 0
  | some e => e.nesting + 1

mutual

/-- How many levels of expressions and blocks a statement opens at once. -/
def Stmt.nesting : Stmt → Nat
  | .expr value _ => Expr.levels (some value)
  | .print argument _ _ => Expr.levels argument
  | .decl _ _ initial _ => Expr.levels initial
  | .block body _ => Stmt.nestingAll body + 1

def Stmt.nestingAll : List Stmt → Nat
  | [] => 0
  | s :: rest => max s.nesting (Stmt.nestingAll rest)

end

/-! ## Scopes -/

/-- The variables that each open block has declared so far. The innermost block comes first, and in
a block the latest variable. Outside all blocks the list is empty. -/
abbrev Blocks := List (List String)

namespace Blocks

/-- The block variables in scope, innermost first. -/
def names (blocks : Blocks) : List String := blocks.flatten

/-- Declares a variable, which is a global outside all blocks. -/
def declare (name : String) : Blocks → Blocks
  | [] => []
  | innermost :: outer => (name :: innermost) :: outer

/-- The open blocks after a statement. -/
def after (blocks : Blocks) : Stmt → Blocks
  | .decl name _ _ _ => blocks.declare name
  | _ => blocks

/-- The open blocks after a sequence of statements. -/
def afterAll (blocks : Blocks) (body : List Stmt) : Blocks := body.foldl after blocks

end Blocks

/-- The names that occur in an expression. -/
def Expr.names : Expr → List String
  | .literal _ _ => []
  | .var name _ => [name]
  | .assign name value => name :: value.names
  | .group inner _ => inner.names
  | .unary _ operand => operand.names
  | .binary _ left right => left.names ++ right.names

def Expr.namesOptional : Option Expr → List String
  | none => []
  | some e => e.names

mutual

/-- No block declares a name twice, and no block variable is named in its own initial value. -/
def Stmt.WellScoped (blocks : Blocks) : Stmt → Prop
  | .expr _ _ | .print _ _ _ => True
  | .decl name _ initial _ =>
    match blocks with
    | [] => True
    | innermost :: _ => name ∉ innermost ∧ name ∉ Expr.namesOptional initial
  | .block body _ => Stmt.WellScopedAll ([] :: blocks) body

def Stmt.WellScopedAll (blocks : Blocks) : List Stmt → Prop
  | [] => True
  | s :: rest => s.WellScoped blocks ∧ Stmt.WellScopedAll (blocks.after s) rest

end

mutual

/-- The greatest number of block variables in scope at once. -/
def Stmt.peak (blocks : Blocks) : Stmt → Nat
  | .expr _ _ | .print _ _ _ => blocks.names.length
  | .decl name _ _ _ => (blocks.declare name).names.length
  | .block body _ => Stmt.peakAll ([] :: blocks) body

def Stmt.peakAll (blocks : Blocks) : List Stmt → Nat
  | [] => blocks.names.length
  | s :: rest => max (s.peak blocks) (Stmt.peakAll (blocks.after s) rest)

end

/-! ## Constants -/

/-- A value is kept as a constant unless an instruction of its own pushes it. -/
def Value.pooled : Value → List Value
  | .nil | .bool _ => []
  | value => [value]

/-- The name of a global is kept as a constant where it is used. -/
def Blocks.pooledName (locals : List String) (name : String) : List Value :=
  if name ∈ locals then [] else [.str name]

/-- The constants that an expression needs, in their order, where `locals` are block variables. -/
def Expr.constants (locals : List String) : Expr → List Value
  | .literal value _ => value.pooled
  | .var name _ => Blocks.pooledName locals name
  | .assign name value => Blocks.pooledName locals name ++ value.constants locals
  | .group inner _ => inner.constants locals
  | .unary _ operand => operand.constants locals
  | .binary _ left right => left.constants locals ++ right.constants locals

def Expr.constantsOptional (locals : List String) : Option Expr → List Value
  | none => []
  | some e => e.constants locals

mutual

/-- The constants that a statement needs, in their order. -/
def Stmt.constants (blocks : Blocks) : Stmt → List Value
  | .expr value _ => value.constants blocks.names
  | .print argument _ _ => Expr.constantsOptional blocks.names argument
  | .decl name _ initial _ =>
    (if blocks = [] then [.str name] else []) ++
      Expr.constantsOptional (blocks.declare name).names initial
  | .block body _ => Stmt.constantsAll ([] :: blocks) body

def Stmt.constantsAll (blocks : Blocks) : List Stmt → List Value
  | [] => []
  | s :: rest => s.constants blocks ++ Stmt.constantsAll (blocks.after s) rest

end

namespace Program

/-- How many levels of expressions and blocks are open at once. -/
def nesting (program : Program) : Nat := Stmt.nestingAll program.body

def WellScoped (program : Program) : Prop := Stmt.WellScopedAll [] program.body

/-- The greatest number of block variables in scope at once. -/
def peak (program : Program) : Nat := Stmt.peakAll [] program.body

/-- The constants that a script needs; one that is needed again is listed again. -/
def constants (program : Program) : List Value := Stmt.constantsAll [] program.body

end Program

/-! ## Basic facts -/

namespace Expr

/-- How strong a level is. -/
def Level.rank : Level → Nat
  | .assign => 0
  | .equality => 1
  | .comparison => 2
  | .term => 3
  | .factor => 4
  | .unary => 5
  | .primary => 6

/-- What a level derives, every weaker level derives. -/
theorem Derives.weaken {strong weak : Level} {tokens : List Token} {e : Expr}
    (hle : weak.rank ≤ strong.rank) (he : Derives strong tokens e) : Derives weak tokens e := by
  by_cases heq : weak = strong
  · rwa [heq]
  · have hnext : weak.rank < weak.next.rank ∧ weak.next.rank ≤ strong.rank := by
      revert hle heq
      cases weak <;> cases strong <;> decide
    exact .stronger (weaken hnext.2 he)
termination_by strong.rank - weak.rank

end Expr

/-- The kinds of tokens that denote a value. -/
theorem Token.Denotes.kind_mem {token : Token} {value : Value} (hvalue : token.Denotes value) :
    token.kind ∈ [.number, .string, .kwTrue, .kwFalse, .kwNil] := by
  cases hvalue <;> simp [*]

namespace Expr.Derives

variable {level : Level} {tokens : List Token} {e : Expr} (he : Derives level tokens e)

include he

/-- An expression starts with a token that may start one. -/
theorem exists_head : ∃ first rest, tokens = first :: rest ∧ first.kind.startsExpr = true := by
  induction he with
  | stronger _ ih => exact ih
  | assign hname _ _ _ => exact ⟨_, _, rfl, by rw [hname]; rfl⟩
  | binary _ _ _ ihl _ =>
      obtain ⟨first, rest, rfl, hfirst⟩ := ihl
      exact ⟨first, _, rfl, hfirst⟩
  | @unary op sign tokens e hsign _ _ =>
      refine ⟨_, _, rfl, ?_⟩
      revert hsign
      cases sign.kind <;> simp [signs, TokenKind.startsExpr]
  | group hopening _ _ _ => exact ⟨_, _, rfl, by rw [hopening]; rfl⟩
  | var hname => exact ⟨_, _, rfl, by rw [hname]; rfl⟩
  | @literal token value hvalue =>
      refine ⟨_, _, rfl, ?_⟩
      have hkind := hvalue.kind_mem
      revert hkind
      cases token.kind <;> simp [TokenKind.startsExpr]

/-- No token of an expression is an `error` token. -/
theorem kind_ne_error : ∀ token ∈ tokens, token.kind ≠ .error := by
  induction he with
  | stronger _ ih => exact ih
  | assign hname hequal _ ih =>
      simp only [List.forall_mem_cons]
      exact ⟨by simp [hname], by simp [hequal], ih⟩
  | @binary level _ _ _ _ _ _ _ hsign _ ihl ihr =>
      simp only [List.forall_mem_append, List.forall_mem_cons]
      refine ⟨ihl, fun h => ?_, ihr⟩
      cases level <;> simp [h, Level.operators] at hsign
  | unary hsign _ ih =>
      simp only [List.forall_mem_cons]
      refine ⟨fun h => ?_, ih⟩
      simp [h, signs] at hsign
  | group hopening _ hclose ih =>
      simp only [List.cons_append, List.forall_mem_cons, List.forall_mem_append]
      exact ⟨by simp [hopening], ih, by simp [hclose], by simp⟩
  | var hname => simp [hname]
  | literal hvalue =>
      simp only [List.forall_mem_singleton]
      intro h
      simpa [h] using hvalue.kind_mem

end Expr.Derives

namespace Stmt.Derives

theorem append {first second : List Token} {body more : List Stmt} (hfirst : Derives first body)
    (hsecond : Derives second more) : Derives (first ++ second) (body ++ more) := by
  induction hfirst with
  | nil => exact hsecond
  | expr he hstop _ ih =>
      rw [List.append_assoc]
      exact .expr he hstop ih
  | print hword hopening hargument hclose hstop _ ih =>
      rw [List.append_assoc]
      exact .print hword hopening hargument hclose hstop ih
  | decl hword hname hinitial hstop _ ih =>
      rw [List.append_assoc]
      exact .decl hword hname hinitial hstop ih
  | block hopening hinner hclose _ _ ih =>
      rw [List.append_assoc]
      exact .block hopening hinner hclose ih

end Stmt.Derives

namespace Blocks

/-- A statement declares variables in the innermost block only. -/
theorem exists_after_cons (innermost : List String) (outer : Blocks) (s : Stmt) :
    ∃ names, Blocks.after (innermost :: outer) s = names :: outer := by
  cases s with
  | decl name pos initial stop => exact ⟨name :: innermost, rfl⟩
  | expr | print | block => exact ⟨innermost, rfl⟩

theorem exists_afterAll_cons (innermost : List String) (outer : Blocks) (body : List Stmt) :
    ∃ names, Blocks.afterAll (innermost :: outer) body = names :: outer := by
  induction body generalizing innermost with
  | nil => exact ⟨innermost, rfl⟩
  | cons s rest ih =>
      obtain ⟨names, hafter⟩ := exists_after_cons innermost outer s
      rw [afterAll, List.foldl_cons, hafter]
      exact ih names

/-- Outside all blocks no block variable is declared. -/
theorem after_nil (s : Stmt) : Blocks.after [] s = [] := by
  cases s <;> rfl

end Blocks

end Scriptlet
