import FeatureIndex.KeySpec

/-!
# Index specifications

An `IndexSpec` describes an index by names, before any type system is at hand.
`IndexSpec.toDocument` writes every field; `IndexSpec.ofDocument?` reads them back, from an object
or from an array in the order of the fields, and fills in the fields that have a default.
-/

namespace FeatureIndex

/-- An index described by names. -/
structure IndexSpec where
  label : String
  typeName : String
  kind : IndexKind
  keys : List KeySpec := []
  duplicatePolicy : Option DuplicatePolicy := none
  deriving DecidableEq

namespace IndexSpec

/-- The members that a written specification may have. -/
def fieldNames : List String := ["label", "type_name", "kind", "keys", "duplicate_policy"]

/-- Write a specification. -/
def toDocument (s : IndexSpec) : Document :=
  .object [
    ("label", .text s.label),
    ("type_name", .text s.typeName),
    ("kind", .text s.kind.name),
    ("keys", .array (s.keys.map KeySpec.toDocument)),
    ("duplicate_policy", match s.duplicatePolicy with
      | some policy => .text policy.name
      | none => .null)]

/-- Read a specification. The keys and the policy may be left out. -/
def ofDocument? (d : Document) : Option IndexSpec := do
  match ← d.fields? fieldNames with
  | [label, typeName, kind, keys, policy] =>
    let label ← (← label).text?
    let typeName ← (← typeName).text?
    let kind ← (← kind).kind?
    let keys ← Document.withDefault? (Document.items? KeySpec.ofDocument?) [] keys
    let policy ← Document.optional? Document.policy? policy
    return ⟨label, typeName, kind, keys, policy⟩
  | _ => none

end IndexSpec
end FeatureIndex
