import FeatureIndex.StructureId
import FeatureIndex.TypeSystem.Basic

/-!
# Feature structures

A feature structure has an id, a type, and one value for each feature of the type. It remembers the
type system that it was built for and is read by feature name through that type system only. A
`Draft` is a structure in the making: it starts from the defaults, and `Draft.set` accepts a value
of the declared range for a feature of the type.

Two structures are the same when their ids are.
-/

namespace FeatureIndex

/-- A feature structure. `system` is the `uid` of the type system that it was built for. -/
structure FeatureStructure where
  id : StructureId
  type : TypeCode
  system : Nat
  values : List Value
  deriving DecidableEq

namespace FeatureStructure

/-- Whether the structure was built for this type system. -/
def builtFor (fs : FeatureStructure) (ts : TypeSystem) : Bool := fs.system == ts.uid

/-- The value in a slot. -/
def valueAt (fs : FeatureStructure) (slot : Nat) : Option Value := fs.values[slot]?

/-- The value of a feature. -/
def value (fs : FeatureStructure) (ts : TypeSystem) (feature : String) : Except Error Value := do
  if fs.builtFor ts then
    let f ← ts.feature fs.type feature
    match fs.valueAt f.slot with
    | some v => return v
    | none => throw (.unknownFeature (ts.name fs.type) feature)
  else throw (.foreignTypeSystem (.fs fs.id.val))

/-- The value of an integer feature. -/
def int (fs : FeatureStructure) (ts : TypeSystem) (feature : String) : Except Error Int := do
  match ← fs.value ts feature with
  | .int n => return n
  | v => throw (.featureRangeMismatch feature ValueRange.int.name v.range.name)

/-- The value of a text feature. -/
def string (fs : FeatureStructure) (ts : TypeSystem) (feature : String) :
    Except Error (Option String) := do
  match ← fs.value ts feature with
  | .string text => return text
  | v => throw (.featureRangeMismatch feature ValueRange.string.name v.range.name)

/-- Whether two structures are the same one. -/
def same (a b : FeatureStructure) : Bool := a.id.val == b.id.val

/-- The text of a structure. -/
def debug (fs : FeatureStructure) : String :=
  Text.record "FeatureStructure" [
    ("id", fs.id.debug),
    ("ty", fs.type.debug),
    ("values", Text.bracketed (fs.values.map Value.debug))]

end FeatureStructure

/-- A structure in the making. -/
structure Draft where
  system : TypeSystem
  id : StructureId
  type : TypeCode
  values : List Value

namespace Draft

/-- A structure of that type with the default in every slot. -/
def start (ts : TypeSystem) (id : StructureId) (type : TypeCode) : Except Error Draft := do
  let info ← ts.info type
  return ⟨ts, id, type, info.features.map fun f => Value.defaultFor f.range⟩

/-- Set a feature to a value of its range. -/
def set (d : Draft) (feature : String) (v : Value) : Except Error Draft := do
  let f ← d.system.feature d.type feature
  if f.range = v.range then
    return { d with values := d.values.set f.slot v }
  else
    throw (.featureRangeMismatch feature f.range.name v.range.name)

/-- The finished structure. -/
def build (d : Draft) : FeatureStructure := ⟨d.id, d.type, d.system.uid, d.values⟩

end Draft
end FeatureIndex
