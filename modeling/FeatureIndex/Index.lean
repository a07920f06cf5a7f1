import FeatureIndex.Config
import FeatureIndex.Definition
import FeatureIndex.Iter
import FeatureIndex.Store.Leaf

/-!
# Indexes

An index covers a type and everything below it, and keeps one leaf store for each covered type,
which holds structures of exactly that type. The leaves stand in the pre-order of the types, so that
those of a subtree form one stretch.

Iterating a type alone walks its leaf. With the subtypes, a sorted index merges the leaves of the
subtree, and the other kinds walk them one after another.
-/

namespace FeatureIndex

/-- An index: its definition, and a leaf for each covered type. -/
structure Index where
  definition : Definition
  leaves : List (TypeCode × Leaf)

namespace Index

/-- The label of the index. -/
def label (ix : Index) : String := ix.definition.label

/-- The kind of the index. -/
def kind (ix : Index) : IndexKind := ix.definition.kind

/-- The type that the index was made for. -/
def type (ix : Index) : TypeCode := ix.definition.type

/-- The type system of the index. -/
def system (ix : Index) : TypeSystem := ix.definition.system

/-- The owner in the identities of arrays of leaves. Nobody asks which snapshots of an index share
an array, so all leaves go by one. -/
def leafOwner : Nat := 0

/-- The empty leaf of a type. -/
def emptyLeaf (d : Definition) (config : Config) (t : TypeCode) : Leaf :=
  match d.kind with
  | .sorted => .ordered (.empty d.comparator .sorted leafOwner config.initialCapacity)
  | .set =>
    let policy := d.duplicatePolicy.getD config.duplicatePolicy
    .ordered (.empty d.comparator (.onePerKey policy) leafOwner config.initialCapacity)
  | .bag => .bag (.empty (.identity d.system t) config.bagPromotionThreshold leafOwner)

/-- The empty index of a definition. -/
def empty (d : Definition) (config : Config) : Except Error Index := do
  let covered ← d.system.subtypes d.type
  return ⟨d, covered.map fun t => (t, emptyLeaf d config t)⟩

/-! ### The leaves -/

/-- Where the leaf of a type stands. -/
def position? (ix : Index) (t : TypeCode) : Option Nat := ix.leaves.findIdx? fun l => l.1 == t

/-- Whether the index has a leaf for a type. -/
def covers (ix : Index) (t : TypeCode) : Bool := (ix.position? t).isSome

/-- The leaf of a type. -/
def leaf? (ix : Index) (t : TypeCode) : Option Leaf :=
  (ix.position? t).bind fun i => (ix.leaves[i]?).map (·.2)

/-- What the leaf of a type holds now. -/
def snapshot (ix : Index) (t : TypeCode) : Snapshot :=
  ((ix.leaf? t).map Leaf.snapshot).getD .empty

/-- The error for a type without a leaf. -/
def notCovered (ix : Index) (t : TypeCode) : Error := .typeNotInIndex ix.label (ix.system.name t)

/-- The leaves of a type, alone or with its subtypes. -/
def stretch (ix : Index) (t : TypeCode) (withSubtypes : Bool) :
    Except Error (List (TypeCode × Leaf)) :=
  match ix.position? t with
  | none => .error (ix.notCovered t)
  | some i => do
    let count ← if withSubtypes then List.length <$> ix.system.subtypes t else pure 1
    return (ix.leaves.drop i).take count

/-- The index with another leaf at position `i`. -/
def setLeaf (ix : Index) (i : Nat) (leaf : Leaf) : Index :=
  { ix with leaves := ix.leaves.modify i fun l => (l.1, leaf) }

/-! ### Contents -/

/-- Add a structure, and tell whether the index changed. Iterators may hold any array of the index,
so a leaf never writes in place. -/
def insert (ix : Index) (fs : FeatureStructure) : Except Error Bool × Index :=
  if !fs.builtFor ix.system then (.error (.foreignTypeSystem (.fs fs.id.val)), ix)
  else
    match ix.position? fs.type, ix.leaf? fs.type with
    | some i, some leaf =>
      let (outcome, leaf) := leaf.insert true fs
      (outcome, ix.setLeaf i leaf)
    | _, _ => (.error (ix.notCovered fs.type), ix)

/-- Remove a structure, and tell whether it was there. -/
def erase (ix : Index) (fs : FeatureStructure) : Bool × Index :=
  match ix.position? fs.type, ix.leaf? fs.type with
  | some i, some leaf =>
    let (removed, leaf) := leaf.erase true fs
    (removed, ix.setLeaf i leaf)
  | _, _ => (false, ix)

/-- Whether the index holds a structure. -/
def contains (ix : Index) (fs : FeatureStructure) : Bool :=
  (ix.leaf? fs.type).any fun leaf => leaf.contains fs

/-- How many structures some leaves hold together. -/
def leavesSize : List (TypeCode × Leaf) → Nat
  | [] => 0
  | l :: rest => l.2.size + leavesSize rest

/-- How many structures the index holds. -/
def size (ix : Index) : Nat := leavesSize ix.leaves

/-- How many structures of a type the index holds, alone or with its subtypes. -/
def sizeOf (ix : Index) (t : TypeCode) (withSubtypes : Bool) : Except Error Nat := do
  let leaves ← ix.stretch t withSubtypes
  return leavesSize leaves

/-- Remove everything. -/
def clear (ix : Index) : Index :=
  { ix with leaves := ix.leaves.map fun l => (l.1, l.2.clear true) }

/-! ### Iterating -/

/-- An iterator over one leaf, at its first element. -/
def leafIterator (t : TypeCode) : Leaf → Iter TypeCode
  | .ordered set => .sorted (.start t set.comparator set.snapshot)
  | .bag b => .bag (.start t b.snapshot)

/-- A sorted cursor over one leaf, where the leaf is ordered. -/
def sortedCursor? (t : TypeCode) : Leaf → Option (SortedCursor TypeCode)
  | .ordered set => some (.start t set.comparator set.snapshot)
  | .bag _ => none

/-- An iterator over a type, alone or with its subtypes. -/
def iterate (ix : Index) (t : TypeCode) (withSubtypes : Bool) : Except Error (Iter TypeCode) := do
  match ← ix.stretch t withSubtypes with
  | [l] => return leafIterator l.1 l.2
  | leaves =>
    match ix.kind with
    | .sorted => Iter.ofSorted (leaves.filterMap fun l => sortedCursor? l.1 l.2)
    | .set | .bag =>
      return Iter.ofList (leaves.map fun l => leafIterator l.1 l.2) ix.definition.comparator ix.kind

/-- An iterator over the type of the index. -/
def iterateOwn (ix : Index) (withSubtypes : Bool) : Except Error (Iter TypeCode) :=
  ix.iterate ix.type withSubtypes

end Index
end FeatureIndex
