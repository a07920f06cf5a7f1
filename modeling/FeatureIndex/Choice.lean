import FeatureIndex.Value
import FeatureIndex.Document

/-!
# Named choices

The closed choices of an index description, each with the name under which documents and texts show
it: the direction of a key, the kind of an index, what happens to a duplicate, the range of a
feature, and the comparison of a constraint.
-/

namespace FeatureIndex

/-- Whether a key ascends or descends. -/
inductive Direction where
  | standard
  | reverse
  deriving DecidableEq

/-- The regime of an index: ordered by key and id, one structure per key, or a plain collection. -/
inductive IndexKind where
  | sorted
  | set
  | bag
  deriving DecidableEq

/-- What a store with one structure per key does with a second one. -/
inductive DuplicatePolicy where
  | reject
  | replace
  deriving DecidableEq

/-- A comparison of a feature value with a given one. -/
inductive Relation where
  | eq
  | ne
  | lt
  | le
  | gt
  | ge
  deriving DecidableEq

namespace Direction

/-- The word for a direction in documents. -/
def name : Direction → String
  | standard => "Standard"
  | reverse => "Reverse"

/-- The direction that a word stands for. -/
def ofName? : String → Option Direction
  | "Standard" => some standard
  | "Reverse" => some reverse
  | _ => none

/-- Turn an ordering around for a descending key. -/
def apply : Direction → Ordering → Ordering
  | standard, o => o
  | reverse, o => o.swap

end Direction

namespace IndexKind

/-- The word for a kind in documents. -/
def name : IndexKind → String
  | sorted => "Sorted"
  | set => "Set"
  | bag => "Bag"

/-- The kind that a word stands for. -/
def ofName? : String → Option IndexKind
  | "Sorted" => some sorted
  | "Set" => some set
  | "Bag" => some bag
  | _ => none

end IndexKind

namespace DuplicatePolicy

/-- The word for a policy in documents. -/
def name : DuplicatePolicy → String
  | reject => "Reject"
  | replace => "Replace"

/-- The policy that a word stands for. -/
def ofName? : String → Option DuplicatePolicy
  | "Reject" => some reject
  | "Replace" => some replace
  | _ => none

end DuplicatePolicy

namespace Relation

/-- The word for a relation in documents. -/
def name : Relation → String
  | eq => "Eq"
  | ne => "Ne"
  | lt => "Lt"
  | le => "Le"
  | gt => "Gt"
  | ge => "Ge"

/-- The relation that a word stands for. -/
def ofName? : String → Option Relation
  | "Eq" => some eq
  | "Ne" => some ne
  | "Lt" => some lt
  | "Le" => some le
  | "Gt" => some gt
  | "Ge" => some ge
  | _ => none

/-- Whether the relation holds between two values that compare as given. -/
def holds : Relation → Ordering → Bool
  | eq, o => o.isEq
  | ne, o => o.isNe
  | lt, o => o.isLT
  | le, o => o.isLE
  | gt, o => o.isGT
  | ge, o => o.isGE

end Relation

namespace ValueRange

/-- The name of a range in documents. -/
def choiceName : ValueRange → String
  | int => "Int"
  | float => "Float"
  | bool => "Bool"
  | string => "Str"

/-- The range that a word stands for. -/
def ofChoiceName? : String → Option ValueRange
  | "Int" => some int
  | "Float" => some float
  | "Bool" => some bool
  | "Str" => some string
  | _ => none

end ValueRange

/-! ### Reading a choice from a document -/

namespace Document

/-- A document as a direction. -/
def direction? (d : Document) : Option Direction := d.choice?.bind Direction.ofName?

/-- A document as an index kind. -/
def kind? (d : Document) : Option IndexKind := d.choice?.bind IndexKind.ofName?

/-- A document as a duplicate policy. -/
def policy? (d : Document) : Option DuplicatePolicy := d.choice?.bind DuplicatePolicy.ofName?

/-- A document as a relation. -/
def relation? (d : Document) : Option Relation := d.choice?.bind Relation.ofName?

/-- A document as a value range. -/
def range? (d : Document) : Option ValueRange := d.choice?.bind ValueRange.ofChoiceName?

end Document
end FeatureIndex
