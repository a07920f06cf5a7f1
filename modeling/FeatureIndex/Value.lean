import FeatureIndex.Decimal.Layout
import FeatureIndex.Text.Quoted

/-!
# Feature values

A value is an integer, a double given by its bit pattern, a truth value, or a text that may be
absent. `Value.totalCmp` orders all values: by range first, then inside the range, doubles by sign
and magnitude of their pattern so that every pattern has its place, and the absent text before every
text.
-/

namespace FeatureIndex

/-- The kind of value that a feature holds. -/
inductive ValueRange where
  | int
  | float
  | bool
  | string
  deriving DecidableEq

namespace ValueRange

/-- The short name used in messages. -/
def name : ValueRange → String
  | int => "int"
  | float => "float"
  | bool => "bool"
  | string => "string"

/-- The position of a range in the order of ranges. -/
def rank : ValueRange → Nat
  | int => 0
  | float => 1
  | bool => 2
  | string => 3

end ValueRange

/-- A feature value. -/
inductive Value where
  | int (n : Int)
  | float (bits : UInt64)
  | bool (b : Bool)
  | string (text : Option String)
  deriving DecidableEq

/-! ### Doubles by their bit pattern -/

namespace Double

/-- The place of a pattern in the total order of doubles: patterns without the sign bit ascend from
zero, those with it descend from minus one. -/
def orderKey (bits : UInt64) : Int :=
  let magnitude : Int := Decimal.unsigned bits
  if Decimal.isNegative bits then -1 - magnitude else magnitude

/-- Compare two patterns in the total order. -/
def totalCmp (a b : UInt64) : Ordering := compare (orderKey a) (orderKey b)

/-- Whether a pattern stands for no number. -/
def isNaN (bits : UInt64) : Bool := Decimal.unsigned bits > 0x7ff0000000000000

/-- Numeric equality: no pattern that is not a number equals anything, and the two zeros are
equal. -/
def numericEq (a b : UInt64) : Bool :=
  !isNaN a && !isNaN b && (a == b || (Decimal.unsigned a == 0 && Decimal.unsigned b == 0))

/-- Numbers from `0.0001` up to below `10^16` are written positionally, others with an exponent. -/
def layout : Decimal.Layout where
  smallest := -4
  largest := 15
  mark := "e"
  infinity := "inf"
  nan := "NaN"

end Double

namespace Value

/-- The value that a slot holds before anything is set. -/
def defaultFor : ValueRange → Value
  | .int => .int 0
  | .float => .float 0
  | .bool => .bool false
  | .string => .string none

/-- The range of a value. -/
def range : Value → ValueRange
  | .int _ => .int
  | .float _ => .float
  | .bool _ => .bool
  | .string _ => .string

/-- The integer, if the value is one. -/
def int? : Value → Option Int
  | .int n => some n
  | _ => none

/-- The bit pattern, if the value is a double. -/
def float? : Value → Option UInt64
  | .float bits => some bits
  | _ => none

/-- The truth value, if the value is one. -/
def bool? : Value → Option Bool
  | .bool b => some b
  | _ => none

/-- The text, if the value is one and is not absent. -/
def string? : Value → Option String
  | .string text => text
  | _ => none

/-- An absent text stands before every text. -/
def compareText : Option String → Option String → Ordering
  | none, none => .eq
  | none, some _ => .lt
  | some _, none => .gt
  | some a, some b => compare a b

/-- The total order of values. -/
def totalCmp : Value → Value → Ordering
  | .int a, .int b => compare a b
  | .float a, .float b => Double.totalCmp a b
  | .bool a, .bool b => compare a b
  | .string a, .string b => compareText a b
  | a, b => compare a.range.rank b.range.rank

/-- Equality of values, numeric on doubles. It is not the equality of the total order: a pattern
that is not a number differs from itself, and the two zeros agree. -/
def agrees : Value → Value → Bool
  | .float a, .float b => Double.numericEq a b
  | a, b => a == b

/-- The text of a value. -/
def debug : Value → String
  | .int n => toString n
  | .float bits => Double.layout.render bits
  | .bool b => toString b
  | .string (some text) => Text.quote text
  | .string none => "null"

end Value
end FeatureIndex
