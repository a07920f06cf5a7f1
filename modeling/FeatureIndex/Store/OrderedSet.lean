import FeatureIndex.Comparator
import FeatureIndex.Store.Ring
import FeatureIndex.Store.Snapshot

/-!
# Ordered sets

An `OrderedSet` keeps structures in strictly ascending order of a comparator. In the `sorted` regime
the order is by key and then id, and any two different structures find a place. In the `onePerKey`
regime the order is by key alone, so that each key is held once, and a policy decides about the
second structure of a key.

Snapshots share the array of the set. A change that finds the array shared goes to a copy of it, and
is counted; whether it is shared is known to the holder of the snapshots and passed in. Every change
bumps the generation.

`OrderedSet.insert` ends with a check of the order and reports the first place where it is broken.
-/

namespace FeatureIndex

/-- The regime of an ordered set. -/
inductive Regime where
  | sorted
  | onePerKey (policy : DuplicatePolicy)
  deriving DecidableEq

/-- The text of a regime. -/
def Regime.debug : Regime → String
  | sorted => "Sorted"
  | onePerKey policy => Text.applied "KeyUnique" [policy.name]

/-- A strictly ascending list of structures. `owner` names the set in the identities of its
arrays. -/
structure OrderedSet where
  comparator : Comparator
  regime : Regime
  owner : Nat
  elements : List FeatureStructure
  ring : Ring
  array : ArrayId
  generation : UInt64
  copies : Nat

namespace OrderedSet

/-- The empty set, with room for some elements. -/
def empty (comparator : Comparator) (regime : Regime) (owner capacity : Nat) : OrderedSet where
  comparator
  regime
  owner
  elements := []
  ring := .withCapacity capacity
  array := ⟨owner, 0⟩
  generation := 0
  copies := 0

/-- The order that the regime keeps. -/
def order (s : OrderedSet) (a b : FeatureStructure) : Ordering :=
  match s.regime with
  | .sorted => s.comparator.compareFully a b
  | .onePerKey _ => s.comparator.compare a b

/-! ### The invariant -/

/-- The first neighbours that do not ascend; `i` is the position of the first of them. -/
def firstDescent? (order : FeatureStructure → FeatureStructure → Ordering) :
    Nat → List FeatureStructure → Option Descent
  | i, a :: b :: rest =>
    if order a b = .lt then firstDescent? order (i + 1) (b :: rest)
    else some ⟨a.id.val, b.id.val, i⟩
  | _, _ => none

/-- Check that the elements ascend. -/
def check (s : OrderedSet) : Except Error Unit :=
  match firstDescent? s.order 0 s.elements with
  | some d => .error (.invariantViolation (.unordered d))
  | none => .ok ()

/-! ### Looking up -/

/-- How many elements there are. -/
def size (s : OrderedSet) : Nat := s.elements.length

/-- The element at a position. -/
def get? (s : OrderedSet) (i : Nat) : Option FeatureStructure := s.elements[i]?

/-- How many elements stand before the point where `p` stops to hold. -/
def splitPoint (s : OrderedSet) (p : FeatureStructure → Bool) : Nat :=
  Bisection.splitPoint s.elements (s.ring.seam s.size) p

/-- How many elements stand before the place of a structure. -/
def place (s : OrderedSet) (fs : FeatureStructure) : Nat :=
  s.splitPoint fun e => s.order e fs == .lt

/-- The element that has the place of a structure in the order of the set, with its position. -/
def occupant? (s : OrderedSet) (fs : FeatureStructure) : Option (Nat × FeatureStructure) :=
  let i := s.place fs
  match s.get? i with
  | some e => if s.order e fs = .eq then some (i, e) else none
  | none => none

/-- The position of this very structure. -/
def find? (s : OrderedSet) (fs : FeatureStructure) : Option Nat :=
  match s.occupant? fs with
  | some (i, e) => if e.same fs then some i else none
  | none => none

/-- Whether this very structure is in the set. -/
def contains (s : OrderedSet) (fs : FeatureStructure) : Bool := (s.find? fs).isSome

/-- The first position whose key is not less than that of `fs`. -/
def lowerBound (s : OrderedSet) (fs : FeatureStructure) : Nat :=
  s.splitPoint fun e => s.comparator.compare e fs == .lt

/-- The position of the first element that is key-equal. -/
def firstWithKey? (s : OrderedSet) (fs : FeatureStructure) : Option Nat :=
  let i := s.lowerBound fs
  match s.get? i with
  | some e => if s.comparator.compare e fs = .eq then some i else none
  | none => none

/-! ### Snapshots -/

/-- The present contents. -/
def snapshot (s : OrderedSet) : Snapshot :=
  ⟨s.elements, s.generation, s.array, s.ring.seam s.size⟩

/-! ### Changing -/

/-- The set with an array of its own: a copy, when the array is shared. -/
def writable (s : OrderedSet) (shared : Bool) : OrderedSet :=
  if shared then
    { s with
      ring := .copied s.size
      array := ⟨s.owner, s.generation + 1⟩
      copies := s.copies + 1 }
  else s

/-- Put a structure at position `i`. -/
def insertAt (s : OrderedSet) (i : Nat) (fs : FeatureStructure) : OrderedSet :=
  { s with
    elements := s.elements.insertIdx i fs
    ring := s.ring.insert s.size i
    generation := s.generation + 1 }

/-- Overwrite the structure at position `i`. -/
def replaceAt (s : OrderedSet) (i : Nat) (fs : FeatureStructure) : OrderedSet :=
  { s with
    elements := s.elements.set i fs
    generation := s.generation + 1 }

/-- Take out the structure at position `i`. -/
def eraseAt (s : OrderedSet) (i : Nat) : OrderedSet :=
  { s with
    elements := s.elements.eraseIdx i
    ring := s.ring.erase s.size i
    generation := s.generation + 1 }

/-- Insert a structure, and tell whether the set changed. When its place is taken it stays out,
unless the policy is to replace and the occupant is a different structure. -/
def insert (s : OrderedSet) (shared : Bool) (fs : FeatureStructure) :
    Except Error Bool × OrderedSet :=
  match s.occupant? fs with
  | some (i, e) =>
    match s.regime with
    | .onePerKey .replace =>
      if e.same fs then (.ok false, s) else (.ok true, (s.writable shared).replaceAt i fs)
    | _ => (.ok false, s)
  | none =>
    let s := (s.writable shared).insertAt (s.place fs) fs
    (s.check.map fun _ => true, s)

/-- Remove this very structure, and tell whether it was there. What is left ascends. -/
def erase (s : OrderedSet) (shared : Bool) (fs : FeatureStructure) : Bool × OrderedSet :=
  match s.find? fs with
  | some i => (true, (s.writable shared).eraseAt i)
  | none => (false, s)

/-- Remove everything. A shared array is left to its other holders, which is no copy. -/
def clear (s : OrderedSet) (shared : Bool) : OrderedSet :=
  let s :=
    if shared then { s with ring := .withCapacity 0, array := ⟨s.owner, s.generation + 1⟩ } else s
  { s with elements := [], ring := { s.ring with head := 0 }, generation := s.generation + 1 }

/-- A set of elements that ascend already, made in some generation. -/
def ofAscending (comparator : Comparator) (regime : Regime) (owner : Nat)
    (elements : List FeatureStructure) (generation : UInt64) : Except Error OrderedSet := do
  let s : OrderedSet := {
    comparator
    regime
    owner
    elements
    ring := .collected elements.length
    array := ⟨owner, generation⟩
    generation
    copies := 0
  }
  s.check
  return s

/-- A second set with the same contents; both share the array until one of them changes. -/
def cloned (s : OrderedSet) (owner : Nat) : OrderedSet := { s with owner }

end OrderedSet
end FeatureIndex
