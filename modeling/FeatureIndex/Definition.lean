import FeatureIndex.Comparator
import FeatureIndex.IndexSpec

/-!
# Index definitions

A definition is what an index is made from: a label, a kind, and a comparator, whose type is the
type of the index. `IndexSpec.resolve` makes one from a description by names.
-/

namespace FeatureIndex

/-- The definition of an index. A bag orders by id, with a comparator that has no keys. -/
structure Definition where
  label : String
  kind : IndexKind
  comparator : Comparator
  duplicatePolicy : Option DuplicatePolicy := none

namespace Definition

/-- The type of the index. -/
def type (d : Definition) : TypeCode := d.comparator.type

/-- The type system of the index. -/
def system (d : Definition) : TypeSystem := d.comparator.system

/-- A sorted index. -/
def sorted (label : String) (comparator : Comparator) : Definition :=
  ⟨label, .sorted, comparator, none⟩

/-- An index that keeps one structure for each key. -/
def set (label : String) (comparator : Comparator) : Definition :=
  ⟨label, .set, comparator, none⟩

/-- An index without an order, of a type and its subtypes. -/
def bag (label : String) (ts : TypeSystem) (type : TypeCode) : Definition :=
  ⟨label, .bag, .identity ts type, none⟩

/-- Say what happens to duplicates, whatever the tunables say. -/
def withPolicy (d : Definition) (policy : DuplicatePolicy) : Definition :=
  { d with duplicatePolicy := some policy }

/-- Label of the index of annotations. -/
def annotationLabel : String := "AnnotationIndex"

/-- The index of annotations: by start, longer ones first, then by the linear order of types. -/
def annotationIndex (ts : TypeSystem) : Except Error Definition := do
  let type ← ts.typeByName Declarations.annotationName
  let comparator ← Comparator.ofKeys ts type [
    .feature Declarations.beginName .standard,
    .feature Declarations.endName .reverse,
    .typePriority]
  return sorted annotationLabel comparator

/-- The text of a definition. -/
def debug (d : Definition) : String :=
  Text.record "IndexDefinition" [
    ("label", Text.quote d.label),
    ("kind", d.kind.name),
    ("comparator", d.comparator.debug),
    ("duplicate_policy", match d.duplicatePolicy with
      | some policy => Text.applied "Some" [policy.name]
      | none => "None")]

end Definition

/-- Look the names of a description up. A bag has no use for keys. -/
def IndexSpec.resolve (s : IndexSpec) (ts : TypeSystem) : Except Error Definition := do
  let type ← ts.typeByName s.typeName
  let d ← match s.kind with
    | .bag => pure (Definition.bag s.label ts type)
    | .set => Definition.set s.label <$> Comparator.ofKeys ts type s.keys
    | .sorted => Definition.sorted s.label <$> Comparator.ofKeys ts type s.keys
  match s.duplicatePolicy with
  | some policy => return d.withPolicy policy
  | none => return d

end FeatureIndex
