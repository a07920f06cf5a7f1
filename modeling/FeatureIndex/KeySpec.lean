import FeatureIndex.Choice

/-!
# Keys by name

A `KeySpec` names one key of an order, before the feature has been looked up on a type.
-/

namespace FeatureIndex

/-- A key given by name: a feature with a direction, or the linear order of types. -/
inductive KeySpec where
  | feature (name : String) (direction : Direction)
  | typePriority
  deriving DecidableEq

namespace KeySpec

/-- Write a key. -/
def toDocument : KeySpec → Document
  | feature name direction =>
    .object [("Feature", .object [("name", .text name), ("order", .text direction.name)])]
  | typePriority => .text "TypePriority"

/-- A feature key is an object whose one member `Feature` is an object; its order may be left
out. -/
def ofDocument? : Document → Option KeySpec
  | .object [("Feature", .object members)] => do
    let name ← (← Document.member? members "name").text?
    let direction ← Document.withDefault? Document.direction? .standard
      (Document.member? members "order")
    return feature name direction
  | d => do
    if (← d.choice?) = "TypePriority" then return typePriority else none

end KeySpec
end FeatureIndex
