import Scriptlet.Decimal.Shortest

/-! # Layout of decimals

How a decimal is written: positionally while the exponent of its leading digit lies in a given
range, and with an exponent otherwise. Positional notation always shows a fraction part.
-/

namespace Scriptlet.Decimal

structure Layout where
  /-- The smallest exponent of the leading digit that is written positionally. -/
  positionalFrom : Int
  /-- The smallest exponent above it that is not. -/
  positionalBelow : Int
  infinity : String
  nan : String

namespace Scientific

def digits (d : Scientific) : List Char :=
  (toString d.coefficient).toList

/-- The exponent of the leading digit. -/
def magnitude (d : Scientific) : Int :=
  d.exponent + d.digits.length - 1

def zeros (n : Nat) : List Char :=
  List.replicate n '0'

def positional (d : Scientific) : List Char :=
  if 0 ≤ d.exponent then d.digits ++ zeros d.exponent.toNat ++ ['.', '0']
  else if 0 ≤ d.magnitude then
    let whole := d.magnitude.toNat + 1
    d.digits.take whole ++ '.' :: d.digits.drop whole
  else '0' :: '.' :: zeros (-d.magnitude - 1).toNat ++ d.digits

def exponential (d : Scientific) : List Char :=
  let mantissa :=
    match d.digits with
    | first :: second :: rest => first :: '.' :: second :: rest
    | short => short
  mantissa ++ 'e' :: (toString d.magnitude).toList

end Scientific

namespace Layout

def scientific (layout : Layout) (d : Scientific) : String :=
  if layout.positionalFrom ≤ d.magnitude ∧ d.magnitude < layout.positionalBelow
  then String.ofList d.positional else String.ofList d.exponential

/-- The text of a float. Both zeros and both infinities show their sign; a NaN has none. -/
def float (layout : Layout) (x : Float) : String :=
  let bits := x.toBits.toNat
  let signBit := Nat.pow 2 63
  let magnitude := bits % signBit
  if x.isNaN then layout.nan
  else
    let sign := if signBit ≤ bits then "-" else ""
    if x.isInf then sign ++ layout.infinity
    else if magnitude = 0 then sign ++ "0.0"
    else sign ++ layout.scientific (Binary.ofMagnitude magnitude).shortest

end Layout

end Scriptlet.Decimal
