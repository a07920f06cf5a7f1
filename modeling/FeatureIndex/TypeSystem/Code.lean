import FeatureIndex.Error
import FeatureIndex.Document

/-!
# Type codes

A type is known by its code, a positive number; code 1 is the root of every type system. Inside the
library a code is kept as a position that counts from zero, and the position is not bounded: codes
are those of a type system with fewer than `2 ^ 32` types.
-/

namespace FeatureIndex

/-- A type code, kept as the position of the type in its type system. -/
structure TypeCode where
  index : Nat
  deriving DecidableEq

namespace TypeCode

/-- The number of a code. -/
def code (t : TypeCode) : Nat := t.index + 1

/-- The root type. -/
def top : TypeCode := ⟨0⟩

/-- The code of a number; zero is none. -/
def ofCode (n : Nat) : Except Error TypeCode :=
  if n = 0 then .error (.invalidTypeCode 0) else .ok ⟨n - 1⟩

/-- Read a code from a document: a positive whole number of at most 32 bits. -/
def ofDocument? (d : Document) : Option TypeCode :=
  (d.count? 0x100000000).bind fun n => (ofCode n).toOption

/-- The text of a code. -/
def debug (t : TypeCode) : String := s!"TypeCode({t.code})"

end TypeCode
end FeatureIndex
