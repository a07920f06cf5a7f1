import FeatureIndex.Decimal.Shortest

/-!
# Writing a double

`Double` takes a 64-bit pattern apart into sign and magnitude; `Layout` holds what a format decides
about decimal notation. `Layout.render` writes a pattern with the shortest digits that read back.
-/

namespace FeatureIndex.Decimal

/-- What a 64-bit pattern stands for, its sign apart. -/
inductive Magnitude where
  | infinite
  | nan
  | zero
  | finite (interval : RoundingInterval)

/-- The weight of the sign bit of a pattern. -/
def signWeight : Nat := 0x8000000000000000

/-- The weight of the lowest bit of the exponent, above fifty-two bits of fraction. -/
def exponentWeight : Nat := 0x10000000000000

/-- A pattern without its sign bit. -/
def unsigned (bits : UInt64) : Nat := bits.toNat % signWeight

/-- Whether the sign bit is set. -/
def isNegative (bits : UInt64) : Bool := bits.toNat ≥ signWeight

/-- Decode the magnitude. The least exponent has no implied leading bit, and the greatest stands for
what is not finite. -/
def Magnitude.ofBits (bits : UInt64) : Magnitude :=
  let exponent := unsigned bits / exponentWeight
  let fraction := unsigned bits % exponentWeight
  if exponent = 2047 then
    if fraction = 0 then .infinite else .nan
  else if exponent = 0 then
    if fraction = 0 then .zero else .finite (.ofBinary fraction (-1074) false)
  else
    let narrow := fraction = 0 && exponent > 1
    .finite (.ofBinary (exponentWeight + fraction) (Int.ofNat exponent - 1075) narrow)

/-- The decisions of a decimal format: a numeral whose leading digit stands for `10^e` is
written positionally when `smallest ≤ e ≤ largest`, and otherwise with `mark` between digits
and exponent. -/
structure Layout where
  smallest : Int
  largest : Int
  mark : String
  infinity : String
  nan : String

/-- The decimal digits of a numeral, trailing zeros dropped. -/
def Numeral.digits (n : Numeral) : List Char :=
  ((Nat.toDigits 10 n.coefficient).reverse.dropWhile (· == '0')).reverse

/-- Exponent of ten of the leading digit. -/
def Numeral.leadingExponent (n : Numeral) : Int :=
  n.exponent + (Nat.toDigits 10 n.coefficient).length - 1

/-- Digits around a point that stands after the digit for `10^0`; a whole number keeps one zero
after the point. -/
def positional (digits : List Char) (leading : Int) : List Char :=
  if leading < 0 then
    '0' :: '.' :: List.replicate (-leading - 1).toNat '0' ++ digits
  else
    let whole := leading.toNat + 1
    let padded := digits ++ List.replicate (whole - digits.length) '0'
    let after := padded.drop whole
    padded.take whole ++ '.' :: (if after.isEmpty then ['0'] else after)

/-- One digit before the point, the others after it, and the exponent. -/
def scientific (mark : String) (digits : List Char) (leading : Int) : List Char :=
  let point := match digits with
    | [] => []
    | [d] => [d]
    | d :: rest => d :: '.' :: rest
  point ++ mark.toList ++ (toString leading).toList

namespace Layout

/-- Write an unsigned magnitude. -/
def renderMagnitude (l : Layout) : Magnitude → String
  | .infinite => l.infinity
  | .nan => l.nan
  | .zero => "0.0"
  | .finite interval =>
    let n := shortest interval
    let e := n.leadingExponent
    if l.smallest ≤ e && e ≤ l.largest then String.ofList (positional n.digits e)
    else String.ofList (scientific l.mark n.digits e)

/-- Write a bit pattern. A number that is not one has no sign. -/
def render (l : Layout) (bits : UInt64) : String :=
  let m := Magnitude.ofBits bits
  match m with
  | .nan => l.nan
  | _ => if isNegative bits then "-" ++ l.renderMagnitude m else l.renderMagnitude m

end Layout
end FeatureIndex.Decimal
