import FeatureIndex.Choice

/-!
# Index tunables

`Config` holds the tunables of an index store. `Config.toDocument` writes every field;
`Config.ofDocument?` reads an object with any of the fields, or an array of them in order, and takes
the default for a field that is not there.
-/

namespace FeatureIndex

/-- Tunables of index stores: the size up to which a bag stays in its small form, the room reserved
for a new ordered store, and what a set index does with a duplicate unless its definition says
otherwise. -/
structure Config where
  bagPromotionThreshold : Nat := 64
  initialCapacity : Nat := 0
  duplicatePolicy : DuplicatePolicy := .reject
  deriving DecidableEq

namespace Config

/-- Counts fit 64 bits. -/
def countBound : Nat := 0x10000000000000000

/-- The members that a written configuration may have. -/
def fieldNames : List String := ["bag_promotion_threshold", "initial_capacity", "duplicate_policy"]

/-- Write a configuration. -/
def toDocument (c : Config) : Document :=
  .object [
    ("bag_promotion_threshold", .int c.bagPromotionThreshold),
    ("initial_capacity", .int c.initialCapacity),
    ("duplicate_policy", .text c.duplicatePolicy.name)]

/-- Read a configuration. What is left out has its default. -/
def ofDocument? (d : Document) : Option Config := do
  match ← d.fields? fieldNames with
  | [threshold, capacity, policy] =>
    let threshold ← Document.withDefault? (Document.count? countBound) 64 threshold
    let capacity ← Document.withDefault? (Document.count? countBound) 0 capacity
    let policy ← Document.withDefault? Document.policy? .reject policy
    return ⟨threshold, capacity, policy⟩
  | _ => none

end Config
end FeatureIndex
