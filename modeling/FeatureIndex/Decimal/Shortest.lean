/-!
# Shortest decimal numerals

A binary floating-point number stands for every real number that rounds to it. Among the decimal
numerals `c · 10^k` inside that interval, `shortest` picks one with the fewest digits, that is with
the largest `k`, and of two such neighbours the nearer one; at equal distance the larger one.

All arithmetic is exact, on natural numbers over a common denominator.
-/

namespace FeatureIndex.Decimal

/-- The reals that round to one positive binary number, as quarters of its unit in the last place:
`value`, `low` and `high` count quarters of `2^exponent`. The ends belong to the interval when it is
`closed`. -/
structure RoundingInterval where
  low : Nat
  value : Nat
  high : Nat
  exponent : Int
  closed : Bool

/-- The interval of `mantissa · 2^exponent`. The number just below a power of two is half as far
away as the one just above, so the lower end is nearer when `narrow` holds. -/
def RoundingInterval.ofBinary (mantissa : Nat) (exponent : Int) (narrow : Bool) :
    RoundingInterval where
  low := 4 * mantissa - (if narrow then 1 else 2)
  value := 4 * mantissa
  high := 4 * mantissa + 2
  exponent := exponent
  closed := mantissa % 2 == 0

/-- A numeral `coefficient · 10^exponent`. -/
structure Numeral where
  coefficient : Nat
  exponent : Int
  deriving DecidableEq

/-- The power of `base` with exponent `e`, or with exponent zero where `e` is negative. -/
def powerAbove (base : Nat) (e : Int) : Nat := Nat.pow base e.toNat

namespace RoundingInterval

/-- Factor that brings a count of quarters of `2^exponent` to the common denominator for the grid
`10^k`. -/
def binaryScale (i : RoundingInterval) (k : Int) : Nat :=
  powerAbove 2 (i.exponent - 2) * powerAbove 10 (-k)

/-- Factor that brings a count of `10^k` to the common denominator. -/
def decimalScale (i : RoundingInterval) (k : Int) : Nat :=
  powerAbove 2 (2 - i.exponent) * powerAbove 10 k

/-- Whether `c · 10^k` rounds to the number. -/
def contains (i : RoundingInterval) (k : Int) (c : Nat) : Bool :=
  let x := c * i.decimalScale k
  let low := i.low * i.binaryScale k
  let high := i.high * i.binaryScale k
  if i.closed then low ≤ x && x ≤ high else low < x && x < high

/-- The best point of the grid `10^k` inside the interval: only the two neighbours of the value can
qualify as nearest. -/
def onGrid (i : RoundingInterval) (k : Int) : Option Nat :=
  let x := i.value * i.binaryScale k
  let d := i.decimalScale k
  let below := x / d
  let above := below + 1
  match i.contains k below, i.contains k above with
  | true, true => if x - below * d < above * d - x then some below else some above
  | true, false => some below
  | false, true => some above
  | false, false => none

/-- Walk from the grid `10^k` to finer ones until one meets the interval. -/
def search (i : RoundingInterval) : Nat → Int → Option Numeral
  | 0, _ => none
  | fuel + 1, k =>
    match i.onGrid k with
    | some c => some ⟨c, k⟩
    | none => search i fuel (k - 1)

end RoundingInterval

/-- An exponent of ten above that of `n · 2^e`, from its binary length: `30103 / 100000` exceeds the
decimal logarithm of two. -/
def decimalCeiling (n : Nat) (e : Int) : Int :=
  (e + (Nat.log2 n : Int)) * 30103 / 100000 + 2

/-- The shortest numeral that rounds to the number of the interval. Seventeen digits always suffice;
the search starts at most three grids too coarse. -/
def shortest (i : RoundingInterval) : Numeral :=
  (i.search 24 (decimalCeiling i.value (i.exponent - 2))).getD ⟨0, 0⟩

end FeatureIndex.Decimal
