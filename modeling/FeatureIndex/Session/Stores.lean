import FeatureIndex.Session.Basic

/-!
# Commands on ordered sets, bags and snapshots

A change of a free store goes to a copy of its array when anything else in the session holds the
array.
-/

namespace FeatureIndex.Session

/-- A free store: an ordered set or a bag, by name. -/
inductive StoreRef where
  | set (name : String)
  | bag (name : String)

namespace StoreRef

/-- Find a store, with its owner number. -/
def locate : StoreRef → Action (Nat × Leaf)
  | set name => do
    let s ← Action.find sets name
    return (s.owner, .ordered s)
  | bag name => do
    let b ← Action.find bags name
    return (b.owner, .bag b)

/-- Keep a store under the name. -/
def store (leaf : Leaf) (s : Session) : StoreRef → Session
  | set name =>
    match leaf with
    | .ordered o => { s with sets := s.sets.put name o }
    | .bag _ => s
  | bag name =>
    match leaf with
    | .bag b => { s with bags := s.bags.put name b }
    | .ordered _ => s

/-- Put a changed store back. -/
def put (r : StoreRef) (leaf : Leaf) : Action Unit := modify fun s => r.store leaf s

/-- Keep a new store under the name, in place of the one that had it. -/
def replace (r : StoreRef) (leaf : Leaf) : Action Unit := Action.replacing fun s => r.store leaf s

end StoreRef

/-! ### Making stores -/

/-- Make an ordered set. -/
def newSet (name comparator : String) (regime : Regime) (capacity : Nat) : Action Unit := do
  let c ← Action.find comparators comparator
  let owner ← Action.freshSerial
  (StoreRef.set name).replace (.ordered (.empty c regime owner capacity))

/-- Make a bag. -/
def newBag (name comparator : String) (threshold : Nat) : Action Unit := do
  let c ← Action.find comparators comparator
  let owner ← Action.freshSerial
  (StoreRef.bag name).replace (.bag (.empty c threshold owner))

/-- Make a second store with the contents of a first one. -/
def clone (source target : StoreRef) : Action Unit := do
  let (_, leaf) ← source.locate
  let owner ← Action.freshSerial
  target.replace (leaf.cloned owner)

/-! ### Changing stores -/

/-- Insert a structure. -/
def insert (r : StoreRef) (fs : FeatureStructure) : Action Bool := do
  let (owner, leaf) ← r.locate
  let (outcome, leaf) := leaf.insert ((← get).leafShared owner leaf) fs
  r.put leaf
  Action.ofExcept outcome

/-- Remove a structure. -/
def erase (r : StoreRef) (fs : FeatureStructure) : Action Bool := do
  let (owner, leaf) ← r.locate
  let (removed, leaf) := leaf.erase ((← get).leafShared owner leaf) fs
  r.put leaf
  return removed

/-- Remove everything. -/
def clear (r : StoreRef) : Action Unit := do
  let (owner, leaf) ← r.locate
  r.put (leaf.clear ((← get).leafShared owner leaf))

/-! ### Snapshots -/

/-- Take a snapshot of a store. -/
def snapshot (r : StoreRef) : Action Snapshot := do
  let (_, leaf) ← r.locate
  r.put leaf.settled
  return leaf.snapshot

/-- Take a snapshot and keep it. -/
def keepSnapshot (name : String) (r : StoreRef) : Action Snapshot := do
  let v ← snapshot r
  modify fun s => { s with snapshots := s.snapshots.put name v }
  return v

/-- Whether a store has not changed since a snapshot. -/
def sameGeneration (name : String) (r : StoreRef) : Action Bool := do
  let v ← Action.find snapshots name
  let (_, leaf) ← r.locate
  return leaf.snapshot.sameGeneration v

/-! ### Dropping -/

/-- A kind of object that can be dropped. -/
inductive Droppable where
  | snapshot
  | iterator
  | set
  | bag
  | repository
  | cas

/-- Drop an object, and tell whether there was one. -/
def drop (kind : Droppable) (name : String) : Action Bool := do
  let s ← get
  let (existed, now) := match kind with
    | .snapshot => ((s.snapshots.find? name).isSome, { s with snapshots := s.snapshots.erase name })
    | .iterator => ((s.iterators.find? name).isSome, { s with iterators := s.iterators.erase name })
    | .set => ((s.sets.find? name).isSome, { s with sets := s.sets.erase name })
    | .bag => ((s.bags.find? name).isSome, { s with bags := s.bags.erase name })
    | .repository =>
      ((s.repositories.find? name).isSome, { s with repositories := s.repositories.erase name })
    | .cas => ((s.instances.find? name).isSome, { s with instances := s.instances.erase name })
  Action.replacing fun _ => now
  return existed

end FeatureIndex.Session
