import Scriptlet.Token.Kind

/-! # Operators and their precedence

The unary and binary operators of expressions, the tokens that spell them, and how tightly each of
them binds. All binary operators associate to the left.
-/

namespace Scriptlet

/-- Binding strength, weakest first. -/
inductive Precedence where
  | none
  | assign
  | or
  | and
  | equality
  | comparison
  | term
  | factor
  | unary
  | call
  | primary
deriving DecidableEq, Repr

namespace Precedence

def rank : Precedence → Nat
  | .none => 0
  | .assign => 1
  | .or => 2
  | .and => 3
  | .equality => 4
  | .comparison => 5
  | .term => 6
  | .factor => 7
  | .unary => 8
  | .call => 9
  | .primary => 10

instance : LE Precedence := ⟨fun a b => a.rank ≤ b.rank⟩

instance (a b : Precedence) : Decidable (a ≤ b) :=
  inferInstanceAs (Decidable (a.rank ≤ b.rank))

instance : Ord Precedence := ⟨fun a b => compare a.rank b.rank⟩

/-- The next stronger level; the strongest is its own successor. -/
def next : Precedence → Precedence
  | .none => .assign
  | .assign => .or
  | .or => .and
  | .and => .equality
  | .equality => .comparison
  | .comparison => .term
  | .term => .factor
  | .factor => .unary
  | .unary => .call
  | .call => .primary
  | .primary => .primary

end Precedence

inductive UnaryOp where
  | negate
  | not
deriving DecidableEq, Repr

inductive BinaryOp where
  | add
  | subtract
  | multiply
  | divide
  | equal
  | notEqual
  | greater
  | greaterEqual
  | less
  | lessEqual
deriving DecidableEq, Repr

def BinaryOp.precedence : BinaryOp → Precedence
  | .add | .subtract => .term
  | .multiply | .divide => .factor
  | .equal | .notEqual => .equality
  | .greater | .greaterEqual | .less | .lessEqual => .comparison

namespace TokenKind

def binaryOp? : TokenKind → Option BinaryOp
  | .plus => some .add
  | .minus => some .subtract
  | .star => some .multiply
  | .slash => some .divide
  | .equalEqual => some .equal
  | .bangEqual => some .notEqual
  | .greater => some .greater
  | .greaterEqual => some .greaterEqual
  | .less => some .less
  | .lessEqual => some .lessEqual
  | _ => none

/-- The binding strength of a token between two operands, `none` if it cannot stand there. -/
def precedence (kind : TokenKind) : Precedence :=
  (kind.binaryOp?.map BinaryOp.precedence).getD .none

/-- Whether an expression may start with a token of the kind. -/
def startsExpr : TokenKind → Bool
  | .leftParen | .minus | .bang | .identifier | .string | .number | .kwTrue | .kwFalse | .kwNil =>
    true
  | _ => false

end TokenKind

end Scriptlet
