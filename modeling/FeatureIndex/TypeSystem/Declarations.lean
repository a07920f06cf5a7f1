import FeatureIndex.TypeSystem.Code
import FeatureIndex.Value

/-!
# Type declarations

`Declarations` collects types and features before a type system is made of them. The root is
declared from the start; every other type names a supertype declared before it. Failed declarations
change nothing, as every operation answers with the new declarations only when it succeeds.
-/

namespace FeatureIndex

/-- A declared type: its name, its supertype, and the features that it declares itself. -/
structure TypeDeclaration where
  name : String
  supertype : Option TypeCode
  features : List (String × ValueRange)

/-- The types declared so far, in order, and the types that are to come first in the linear order of
types. -/
structure Declarations where
  types : List TypeDeclaration
  priorities : List TypeCode

namespace Declarations

/-- Name of the root type. -/
def topName : String := "TOP"

/-- Name of the built-in annotation type. -/
def annotationName : String := "Annotation"

/-- The feature of an annotation that holds its start. -/
def beginName : String := "begin"

/-- The feature of an annotation that holds its end. -/
def endName : String := "end"

/-- The declarations that hold the root only. -/
def root : Declarations where
  types := [⟨topName, none, []⟩]
  priorities := []

/-- The code of a declared name. -/
def code? (d : Declarations) (name : String) : Option TypeCode :=
  (d.types.findIdx? fun t => t.name == name).map TypeCode.mk

/-- Declare a type. A name in use is reported before a supertype that does not exist. -/
def addType (d : Declarations) (name : String) (supertype : TypeCode) :
    Except Error (TypeCode × Declarations) :=
  if (d.code? name).isSome then
    .error (.duplicateType name)
  else if supertype.index < d.types.length then
    .ok (⟨d.types.length⟩, { d with types := d.types ++ [⟨name, some supertype, []⟩] })
  else
    .error (.invalidTypeCode supertype.code)

/-- Declare a feature on a type, for all its subtypes too. Only the type's own features are looked
at here; a clash with an inherited one shows when the declarations are committed. -/
def addFeature (d : Declarations) (type : TypeCode) (name : String) (range : ValueRange) :
    Except Error Declarations :=
  match d.types[type.index]? with
  | none => .error (.invalidTypeCode type.code)
  | some t =>
    if t.features.any fun f => f.1 == name then
      .error (.duplicateFeature t.name name)
    else
      let extended := { t with features := t.features ++ [(name, range)] }
      .ok { d with types := d.types.set type.index extended }

/-- Declare the annotation type with its integer offsets, or find the type of that name. -/
def withAnnotationType (d : Declarations) : Except Error (TypeCode × Declarations) :=
  match d.code? annotationName with
  | some t => .ok (t, d)
  | none => do
    let (t, d) ← d.addType annotationName .top
    let d ← d.addFeature t beginName .int
    let d ← d.addFeature t endName .int
    return (t, d)

/-- Put the given types first in the linear order of types. -/
def withPriorities (d : Declarations) (order : List TypeCode) : Declarations :=
  { d with priorities := order }

end Declarations
end FeatureIndex
