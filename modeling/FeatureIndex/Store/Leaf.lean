import FeatureIndex.Store.Bag

/-!
# Leaf stores

A leaf holds the structures of one exact type of one index, in the store that suits the kind of the
index.
-/

namespace FeatureIndex

/-- The store of one type. -/
inductive Leaf where
  | ordered (set : OrderedSet)
  | bag (bag : Bag)

namespace Leaf

/-- The structures, in the order of the store. -/
def elements : Leaf → List FeatureStructure
  | ordered set => set.elements
  | bag b => b.elements

/-- How many structures there are. -/
def size : Leaf → Nat
  | ordered set => set.size
  | bag b => b.size

/-- Whether a structure is held. -/
def contains (fs : FeatureStructure) : Leaf → Bool
  | ordered set => set.contains fs
  | bag b => b.contains fs

/-- The present contents. -/
def snapshot : Leaf → Snapshot
  | ordered set => set.snapshot
  | bag b => b.snapshot

/-- The leaf after a snapshot was taken. -/
def settled : Leaf → Leaf
  | ordered set => ordered set
  | bag b => bag b.settled

/-- The array that a change would write to, where the leaf has one. -/
def array? : Leaf → Option ArrayId
  | ordered set => some set.array
  | bag b =>
    match b.form with
    | .small _ sorted => sorted.map (·.1)
    | .promoted set => some set.array

/-- Insert a structure, and tell whether the leaf changed. -/
def insert (shared : Bool) (fs : FeatureStructure) : Leaf → Except Error Bool × Leaf
  | ordered set =>
    let (outcome, set) := set.insert shared fs
    (outcome, ordered set)
  | bag b =>
    let (outcome, b) := b.insert shared fs
    (outcome, bag b)

/-- Remove a structure, and tell whether it was there. -/
def erase (shared : Bool) (fs : FeatureStructure) : Leaf → Bool × Leaf
  | ordered set =>
    let (removed, set) := set.erase shared fs
    (removed, ordered set)
  | bag b =>
    let (removed, b) := b.erase shared fs
    (removed, bag b)

/-- Remove everything. -/
def clear (shared : Bool) : Leaf → Leaf
  | ordered set => ordered (set.clear shared)
  | bag b => bag b.clear

/-- A second leaf with the same contents. -/
def cloned (owner : Nat) : Leaf → Leaf
  | ordered set => ordered (set.cloned owner)
  | bag b => bag (b.cloned owner)

end Leaf
end FeatureIndex
