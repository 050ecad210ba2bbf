import Scriptlet.Decimal.Digits
import Scriptlet.Value.Basic

/-! # Numerals

The value that a numeral of a script denotes: digits with at most one point among, before or after
them. Without a point it is an integer as long as it fits; every other numeral is the nearest
double.
-/

namespace Scriptlet.Value

/-- A sign is not part of a numeral. -/
def ofNumeral (numeral : List Char) : Value :=
  let whole := numeral.takeWhile (· ≠ '.')
  match numeral.dropWhile (· ≠ '.') with
  | [] =>
    let n := Decimal.ofDigits whole
    if n ≤ Int64.maxValue.toInt.toNat then .int (Int64.ofNat n)
    else .float (Float.ofScientific n false 0)
  | _ :: fraction =>
    .float (Float.ofScientific (Decimal.ofDigits (whole ++ fraction)) true fraction.length)

end Scriptlet.Value
