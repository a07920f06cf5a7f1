import FeatureIndex.Store.OrderedSet

/-!
# Bags

A bag keeps every structure once, by its id, and lists them in ascending order of ids. While it is
small it is a table of members, which are sorted when they are asked for; the array of them is kept
until the next change. Once the bag holds more than a threshold it is promoted to an ordered set,
and clearing it makes it small again.

The two forms cannot be told apart when the comparator has no keys. With keys, promotion fails when
the ids do not ascend in the order of the keys: the new member is in, the generation has gone up,
and the bag stays small.

`Bag.insert` ends with a check of the bag, whatever its form is.
-/

namespace FeatureIndex

/-- The form of a bag. A small bag is a table of members under their ids, in no particular order,
and remembers the array of its members by ascending ids once that has been made. -/
inductive BagForm where
  | small (members : List (Nat × FeatureStructure))
      (sorted : Option (ArrayId × List FeatureStructure))
  | promoted (set : OrderedSet)

/-- A collection of structures by id. -/
structure Bag where
  comparator : Comparator
  threshold : Nat
  owner : Nat
  form : BagForm
  generation : UInt64

namespace Bag

/-- The empty bag, which becomes an ordered set above `threshold` members. -/
def empty (comparator : Comparator) (threshold owner : Nat) : Bag :=
  ⟨comparator, threshold, owner, .small [] none, 0⟩

/-- Whether the bag has become an ordered set. -/
def isPromoted (b : Bag) : Bool :=
  match b.form with
  | .small .. => false
  | .promoted _ => true

/-- How many members there are. -/
def size (b : Bag) : Nat :=
  match b.form with
  | .small members _ => members.length
  | .promoted set => set.size

/-- Whether a structure is a member. A small bag goes by the id alone. -/
def contains (b : Bag) (fs : FeatureStructure) : Bool :=
  match b.form with
  | .small members _ => members.any fun m => m.1 == fs.id.val
  | .promoted set => set.contains fs

/-! ### The order of ids -/

/-- The members below an id, the new member, and the members above. -/
def insertById (fs : FeatureStructure) (members : List FeatureStructure) : List FeatureStructure :=
  members.takeWhile (fun m => m.id.val < fs.id.val) ++
    fs :: members.dropWhile (fun m => m.id.val < fs.id.val)

/-- Structures by ascending ids. -/
def sortById (members : List FeatureStructure) : List FeatureStructure :=
  members.foldr insertById []

/-- The array of the members by ascending ids. A small bag has it remembered, or sorts its members
into a new one. -/
def sortedMembers (b : Bag) : ArrayId × List FeatureStructure :=
  match b.form with
  | .small members sorted => sorted.getD (⟨b.owner, b.generation⟩, sortById (members.map (·.2)))
  | .promoted set => (set.array, set.elements)

/-- The members by ascending ids. -/
def elements (b : Bag) : List FeatureStructure := b.sortedMembers.2

/-! ### Snapshots -/

/-- The present contents. -/
def snapshot (b : Bag) : Snapshot :=
  match b.form with
  | .small .. => ⟨b.elements, b.generation, b.sortedMembers.1, b.elements.length⟩
  | .promoted set => { set.snapshot with generation := b.generation }

/-- The bag after a snapshot was taken: a small bag remembers its array. -/
def settled (b : Bag) : Bag :=
  match b.form with
  | .small members _ => { b with form := .small members (some b.sortedMembers) }
  | .promoted _ => b

/-! ### The invariant -/

/-- Check that a table has its structures under their own ids, or that the set of a promoted bag
ascends. -/
def check (b : Bag) : Except Error Unit :=
  match b.form with
  | .small members _ =>
    match members.find? fun m => m.1 != m.2.id.val with
    | some (key, fs) => .error (.invariantViolation (.misplaced key fs.id.val))
    | none => .ok ()
  | .promoted set => set.check

/-! ### Changing -/

/-- Promote a bag that has outgrown its threshold. -/
def promoteIfLarge (b : Bag) : Except Error Unit × Bag :=
  match b.form with
  | .small members _ =>
    if b.threshold < members.length then
      match OrderedSet.ofAscending b.comparator .sorted b.owner b.elements b.generation with
      | .ok set => (.ok (), { b with form := .promoted set })
      | .error e => (.error e, b)
    else (.ok (), b)
  | .promoted _ => (.ok (), b)

/-- Insert a structure, and tell whether the bag changed. -/
def insert (b : Bag) (shared : Bool) (fs : FeatureStructure) : Except Error Bool × Bag :=
  match b.form with
  | .small members _ =>
    if b.contains fs then (.ok false, b)
    else
      let grown := { b with
        form := .small ((fs.id.val, fs) :: members) none
        generation := b.generation + 1 }
      match grown.promoteIfLarge with
      | (.ok (), b) => (b.check.map fun _ => true, b)
      | (.error e, b) => (.error e, b)
  | .promoted set =>
    match set.insert shared fs with
    | (.ok true, set) =>
      let b := { b with form := .promoted set, generation := b.generation + 1 }
      (b.check.map fun _ => true, b)
    | (outcome, set) => (outcome, { b with form := .promoted set })

/-- Remove a structure, and tell whether it was there. A small bag goes by the id alone. -/
def erase (b : Bag) (shared : Bool) (fs : FeatureStructure) : Bool × Bag :=
  match b.form with
  | .small members _ =>
    if b.contains fs then
      (true, { b with
        form := .small (members.filter fun m => m.1 != fs.id.val) none
        generation := b.generation + 1 })
    else (false, b)
  | .promoted set =>
    match set.erase shared fs with
    | (true, set) => (true, { b with form := .promoted set, generation := b.generation + 1 })
    | (false, _) => (false, b)

/-- Remove everything and become small. -/
def clear (b : Bag) : Bag :=
  { b with form := .small [] none, generation := b.generation + 1 }

/-- A second bag with the same contents. Both share an array where there is one. -/
def cloned (b : Bag) (owner : Nat) : Bag :=
  match b.form with
  | .small .. => { b with owner }
  | .promoted set => { b with owner, form := .promoted (set.cloned owner) }

end Bag
end FeatureIndex
