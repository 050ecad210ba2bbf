/-! # Decimal digits -/

namespace Scriptlet.Decimal

/-- The number that a run of decimal digits denotes; none denotes zero. -/
def ofDigits (digits : List Char) : Nat :=
  digits.foldl (fun n c => 10 * n + (c.toNat - '0'.toNat)) 0

end Scriptlet.Decimal
