import FeatureIndex.Choice
import FeatureIndex.Structure

/-!
# Constraints

A constraint is a condition on structures: a test of the type or of one feature, or a combination of
conditions. `Constraint.onFeature` looks the feature up once and keeps its slot.
-/

namespace FeatureIndex

/-- A condition on structures. -/
inductive Constraint where
  | type (type : TypeCode) (includeSubtypes : Bool)
  | feature (type : TypeCode) (slot : Nat) (name : String) (relation : Relation) (value : Value)
  | and (a b : Constraint)
  | or (a b : Constraint)
  | not (c : Constraint)

namespace Constraint

/-- Structures of a type or of one below it. -/
def isType (t : TypeCode) : Constraint := type t true

/-- Structures of exactly that type. -/
def isExactType (t : TypeCode) : Constraint := type t false

/-- Structures of a type or of one below it whose feature stands in a relation to a value. The value
has the range of the feature. -/
def onFeature (ts : TypeSystem) (t : TypeCode) (name : String) (relation : Relation)
    (value : Value) : Except Error Constraint := do
  let f ← ts.feature t name
  if f.range = value.range then
    return feature t f.slot name relation value
  else
    throw (.featureRangeMismatch name f.range.name value.range.name)

/-- Whether a structure meets the condition. -/
def accepts (ts : TypeSystem) (fs : FeatureStructure) : Constraint → Bool
  | type t true => ts.subsumes t fs.type
  | type t false => t == fs.type
  | feature t slot _ relation value =>
    ts.subsumes t fs.type &&
      match fs.valueAt slot with
      | some v => relation.holds (v.totalCmp value)
      | none => false
  | and a b => accepts ts fs a && accepts ts fs b
  | or a b => accepts ts fs a || accepts ts fs b
  | not c => !accepts ts fs c

/-- The text of a condition. -/
def debug : Constraint → String
  | type t includeSubtypes =>
    Text.record "Type" [("ty", t.debug), ("include_subtypes", toString includeSubtypes)]
  | feature t slot name relation value =>
    Text.record "Feature" [
      ("ty", t.debug),
      ("slot", toString slot),
      ("name", Text.quote name),
      ("op", relation.name),
      ("value", value.debug)]
  | and a b => Text.applied "And" [a.debug, b.debug]
  | or a b => Text.applied "Or" [a.debug, b.debug]
  | not c => Text.applied "Not" [c.debug]

end Constraint
end FeatureIndex
