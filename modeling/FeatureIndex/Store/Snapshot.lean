import FeatureIndex.Store.Bisection
import FeatureIndex.Structure

/-!
# Snapshots

A snapshot is what a store held at one moment. It never changes. It carries the generation that the
store had then, by which it can be told whether the store has changed since, and the identity of the
array that it shares with the store and with other snapshots.
-/

namespace FeatureIndex

/-- The identity of an array: the store that made it, and the generation of the store from which on
it was in use. A store makes at most one array in a generation. -/
structure ArrayId where
  owner : Nat
  born : UInt64
  deriving DecidableEq

/-- What a store held at one moment. The elements lie in two parts, cut at `seam`. -/
structure Snapshot where
  elements : List FeatureStructure
  generation : UInt64
  array : ArrayId
  seam : Nat

namespace Snapshot

/-- The snapshot of nothing. -/
def empty : Snapshot := ⟨[], 0, ⟨0, 0⟩, 0⟩

/-- How many elements there are. -/
def size (s : Snapshot) : Nat := s.elements.length

/-- How many elements some snapshots have together. -/
def totalSize : List Snapshot → Nat
  | [] => 0
  | s :: rest => s.size + totalSize rest

/-- The element at a position. -/
def get? (s : Snapshot) (i : Nat) : Option FeatureStructure := s.elements[i]?

/-- How many elements stand before the point where `p` stops to hold. -/
def splitPoint (s : Snapshot) (p : FeatureStructure → Bool) : Nat :=
  Bisection.splitPoint s.elements s.seam p

/-- Whether two snapshots lie in one array. -/
def sharesArray (s t : Snapshot) : Bool := s.array == t.array

/-- Whether a store of that snapshot has stayed at the generation of another. Generations are
compared by number, whatever store they come from. -/
def sameGeneration (live s : Snapshot) : Bool := live.generation == s.generation

end Snapshot
end FeatureIndex
