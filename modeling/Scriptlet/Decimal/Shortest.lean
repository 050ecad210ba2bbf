/-! # Shortest decimals

A binary fraction stands for every real number that rounds to it. `Binary.shortest` picks, among
the decimals of that interval, one with the fewest digits, and of those the nearest; of two equally
near ones it takes the larger. All arithmetic is on natural numbers and exact.
-/

namespace Scriptlet.Decimal

/-- The decimal `coefficient * 10 ^ exponent`. -/
structure Scientific where
  coefficient : Nat
  exponent : Int
deriving DecidableEq, Repr

/-- The positive binary fraction `significand * 2 ^ exponent` of a format with a fixed number of
significant bits. -/
structure Binary where
  significand : Nat
  exponent : Int
  /-- Whether the next smaller number of the format lies only half as far away as the next larger
  one, as it does below a power of two. -/
  narrowBelow : Bool
deriving DecidableEq, Repr

namespace Binary

/-- The nonzero finite double with this magnitude (the bits without the sign). -/
def ofMagnitude (bits : Nat) : Binary :=
  let hidden : Nat := Nat.pow 2 52
  let fraction : Nat := bits % hidden
  let biased : Nat := bits / hidden
  if biased = 0 then ⟨fraction, -1074, false⟩
  else ⟨hidden + fraction, biased - 1075, fraction == 0 && biased > 1⟩

/-- A decimal grid of step `10 ^ exponent`, seen from a binary fraction: in common units the
fraction is `value`, the reals that round to it lie between `low` and `high`, and two neighbours of
the grid lie `step` apart. -/
structure Grid where
  step : Nat
  value : Nat
  low : Nat
  high : Nat
  /-- Whether the ends of the interval round to the fraction too. -/
  closed : Bool

def grid (x : Binary) (exponent : Int) : Grid :=
  -- Halfway points, also those below a power of two, are whole multiples of a quarter.
  let quarter := x.exponent - 2
  let scale := Nat.pow 2 quarter.toNat * Nat.pow 10 (-exponent).toNat
  { step := Nat.pow 10 exponent.toNat * Nat.pow 2 (-quarter).toNat
    value := 4 * x.significand * scale
    low := (4 * x.significand - if x.narrowBelow then 1 else 2) * scale
    high := (4 * x.significand + 2) * scale
    closed := x.significand % 2 = 0 }

/-- Whether the `n`th point of the grid rounds to the fraction. -/
def Grid.holds (g : Grid) (n : Nat) : Bool :=
  let point := n * g.step
  (g.low < point && point < g.high) || (g.closed && (point = g.low || point = g.high))

/-- The point of the grid nearest to the fraction among those that round to it. It is one of the
fraction's two neighbours, or there is none. -/
def Grid.nearest? (g : Grid) : Option Nat :=
  let below := g.value / g.step
  let above := below + 1
  match g.holds below, g.holds above with
  | false, false => none
  | true, false => some below
  | false, true => some above
  | true, true =>
    if above * g.step - g.value ≤ g.value - below * g.step then some above else some below

/-- Tries finer and finer grids. -/
def search (x : Binary) : Nat → Int → Scientific
  | 0, exponent => ⟨(x.grid exponent).value / (x.grid exponent).step, exponent⟩
  | tries + 1, exponent =>
    match (x.grid exponent).nearest? with
    | some n => ⟨n, exponent⟩
    | none => search x tries (exponent - 1)

/-- A grid so coarse that the fraction lies before its first point: `0.30103` exceeds the decimal
logarithm of two by too little to matter for exponents of doubles. -/
def coarsest (x : Binary) : Int :=
  (x.significand.log2 + x.exponent) * 30103 / 100000 + 2

/-- The shortest decimal that rounds to the fraction. Seventeen digits are enough for every double,
and the coarsest grid is at most two steps above the first digit. -/
def shortest (x : Binary) : Scientific :=
  x.search 20 x.coarsest

end Binary

end Scriptlet.Decimal
