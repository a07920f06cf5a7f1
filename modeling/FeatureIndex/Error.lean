/-!
# Errors

Every operation that can fail names its cause by an `Error`; `Error.message` is the one place that
words them.
-/

namespace FeatureIndex

/-- What is wrong with a list of type priorities. -/
inductive PriorityFault where
  | unknownCode (code : Nat)
  | listedTwice (name : String)
  deriving DecidableEq

/-- Something that was built for another type system. -/
inductive Foreign where
  | fs (id : Nat)
  | index (label : String)
  | released
  deriving DecidableEq

/-- An operation that a cursor does not offer. -/
inductive Unsupported where
  | emptyMerge
  | filteredSize
  deriving DecidableEq

/-- Why two cursors have no common order; the orders are given by their text. -/
inductive Incomparable where
  | orders (left right : String)
  | unordered
  deriving DecidableEq

/-- Two neighbours of an ordered store that do not ascend: their ids and the position of the
first. -/
structure Descent where
  left : Nat
  right : Nat
  position : Nat
  deriving DecidableEq

/-- What a store finds wrong with itself: neighbours out of order, or an entry under an id that is
not that of its structure. -/
inductive Violation where
  | unordered (descent : Descent)
  | misplaced (key id : Nat)
  deriving DecidableEq

/-- The cause of a failure. -/
inductive Error where
  | invalidStructureId
  | invalidTypeCode (code : Nat)
  | unknownType (name : String)
  | duplicateType (name : String)
  | unknownFeature (type feature : String)
  | duplicateFeature (type feature : String)
  | featureRangeMismatch (feature expected found : String)
  | invalidTypePriorities (fault : PriorityFault)
  | unknownIndex (label : String)
  | duplicateIndexLabel (label : String)
  | typeNotInIndex (index type : String)
  | unknownView (name : String)
  | duplicateView (name : String)
  | foreignTypeSystem (what : Foreign)
  | invalidIterator
  | unsupportedOperation (operation : Unsupported)
  | notComparable (reason : Incomparable)
  | invariantViolation (violation : Violation)
  | capacityExhausted (capacity : Nat)
  deriving DecidableEq

/-- The wording of a fault in a priority list. -/
def PriorityFault.message : PriorityFault → String
  | unknownCode code => s!"unknown type code {code}"
  | listedTwice name => s!"type `{name}` listed twice"

/-- How something foreign is named. -/
def Foreign.message : Foreign → String
  | fs id => s!"FS {id}"
  | index label => label
  | released => "released CAS"

/-- The wording of an operation that is not supported. -/
def Unsupported.message : Unsupported → String
  | emptyMerge => "merge over zero iterators"
  | filteredSize => "ll_index_size through a filtered iterator"

/-- The wording of why iterators do not compare. -/
def Incomparable.message : Incomparable → String
  | orders left right => s!"{left} vs {right}"
  | unordered => "bag and unordered iterators have no ordering"

/-- The wording of a place where elements do not ascend. -/
def Descent.message (d : Descent) : String :=
  s!"elements {d.left} and {d.right} at positions {d.position} and {d.position + 1} " ++
    "are not strictly ascending"

/-- The wording of what is wrong with a store. -/
def Violation.message : Violation → String
  | unordered descent => descent.message
  | misplaced key id => s!"bag entry keyed {key} holds structure {id}"

/-- The wording of each cause. -/
def Error.message : Error → String
  | invalidStructureId => "FsId must be non-zero (0 is reserved as invalid/sentinel)"
  | invalidTypeCode code => s!"Type code {code} is not defined in this type system"
  | unknownType name => s!"Unknown type `{name}`"
  | duplicateType name => s!"Type `{name}` is already defined"
  | unknownFeature type feature => s!"Type `{type}` has no feature `{feature}`"
  | duplicateFeature type feature =>
    s!"Feature `{feature}` is already defined on `{type}` or a supertype"
  | featureRangeMismatch feature expected found =>
    s!"Feature `{feature}` expects a {expected} value, found {found}"
  | invalidTypePriorities fault => "Invalid type priority list: " ++ fault.message
  | unknownIndex label => s!"Unknown index `{label}`"
  | duplicateIndexLabel label => s!"Index label `{label}` is already registered"
  | typeNotInIndex index type => s!"Index `{index}` does not cover type `{type}`"
  | unknownView name => s!"Unknown view `{name}`"
  | duplicateView name => s!"View `{name}` already exists"
  | foreignTypeSystem what => s!"`{what.message}` was built against a different type system"
  | invalidIterator => "Iterator is not valid (positioned outside its elements)"
  | unsupportedOperation operation => "Unsupported operation: " ++ operation.message
  | notComparable reason => "Iterators are not comparable: " ++ reason.message
  | invariantViolation violation => "Invariant violated: " ++ violation.message
  | capacityExhausted capacity => s!"Backing store could not grow beyond {capacity} elements"

end FeatureIndex
