import FeatureIndex.Cas
import FeatureIndex.Constraint

/-!
# Sessions

A session keeps objects under names, one table for each kind, and lets commands work on them. It
knows what a value alone cannot tell: which stores are still there for an iterator to rebind to, and
which arrays are held by more than one of its objects.

An iterator knows each of its stores by a `Source`. When a store goes away, because its object is
dropped or replaced or its view is discarded, the iterators that walk it keep what it held last.
-/

namespace FeatureIndex

/-- Where the store of an iterator's leaf is found: a free ordered set or bag by its owner number, a
leaf of a standalone index, of a standalone repository or of a `Cas` by serial number, or nowhere
any more. -/
inductive Source where
  | store (owner : Nat)
  | index (serial : Nat) (type : TypeCode)
  | repository (serial : Nat) (leaf : Repository.Address)
  | cas (serial : Nat) (leaf : Cas.Address)
  | gone (last : Snapshot)

/-- Why a command came to nothing. -/
inductive Failure where
  | error (e : Error)
  | missing (name : String)
  | unreadable
  | unpositioned
  | notReleased (reason : Error)
  | malformed (what : String)

/-- The store that finds something wrong with itself. -/
def storeOf : Violation → String
  | .unordered _ => "OrderedFsSet"
  | .misplaced .. => "BagStore"

/-- The wording of a failure. A store that is not as it has to be is a failure of the library, not
of the command, and says so. -/
def Failure.message : Failure → String
  | error (.invariantViolation v) =>
    "[invariants] " ++ storeOf v ++ " invalid: " ++ (Error.invariantViolation v).message
  | error e => e.message
  | missing name => name
  | unreadable => "not readable"
  | unpositioned => "get_nvc called on an invalid iterator"
  | notReleased reason => "CAS not returned to the pool: " ++ reason.message
  | malformed what => what

/-! ### Tables -/

/-- Objects by name. -/
abbrev Table (α : Type) := List (String × α)

namespace Table

/-- The object of that name. -/
def find? (t : Table α) (name : String) : Option α :=
  (List.find? (fun p => p.1 == name) t).map (·.2)

/-- Forget the object of a name. -/
def erase (t : Table α) (name : String) : Table α := List.filter (fun p => p.1 != name) t

/-- Keep an object under a name, in place of the one that had it. -/
def put (t : Table α) (name : String) (a : α) : Table α := (name, a) :: t.erase name

/-- All objects. -/
def values (t : Table α) : List α := List.map (·.2) t

end Table

/-! ### The session -/

/-- The named objects of a session, and the next serial number to give out. Indexes and repositories
stand beside their serial numbers. -/
structure Session where
  builders : Table Declarations := []
  systems : Table TypeSystem := []
  structures : Table FeatureStructure := []
  comparators : Table Comparator := []
  definitions : Table Definition := []
  sets : Table OrderedSet := []
  bags : Table Bag := []
  indexes : Table (Nat × Index) := []
  repositories : Table (Nat × Repository) := []
  instances : Table Cas := []
  pools : Table Pool := []
  snapshots : Table Snapshot := []
  iterators : Table (Iter Source) := []
  serial : Nat := 1

namespace Session

/-! ### What sources hold -/

/-- What the store of a source holds now, as long as it is there. -/
def snapshot? (s : Session) : Source → Option Snapshot
  | .store owner =>
    match s.sets.values.find? fun set => set.owner == owner with
    | some set => some set.snapshot
    | none => (s.bags.values.find? fun b => b.owner == owner).map Bag.snapshot
  | .index serial t =>
    (s.indexes.values.find? fun ix => ix.1 == serial).map fun ix => ix.2.snapshot t
  | .repository serial a =>
    (s.repositories.values.find? fun r => r.1 == serial).map fun r => r.2.snapshot a
  | .cas serial a =>
    match s.instances.values.find? fun c => c.serial == serial with
    | some c => c.snapshot? a
    | none =>
      match (s.pools.values.flatMap Pool.free).find? fun c => c.serial == serial with
      | some c => c.snapshot? a
      | none => none
  | .gone last => some last

/-- What the store of a source holds now. -/
def live (s : Session) (source : Source) : Snapshot := (s.snapshot? source).getD .empty

/-- Leave to the iterators what their stores held `before`, where those are gone now. -/
def retire (before now : Session) : Session :=
  let keep := fun source =>
    match now.snapshot? source with
    | some _ => source
    | none => .gone (before.live source)
  { now with iterators := now.iterators.map fun p => (p.1, p.2.map keep) }

/-! ### Shared arrays -/

/-- Every snapshot that an iterator holds on to: those it is bound to, and those of stores that are
gone. -/
def heldBy (it : Iter Source) : List Snapshot :=
  it.leaves.flatMap fun l =>
    match l.1 with
    | .gone last => [l.2, last]
    | _ => [l.2]

/-- Whether anything but the store of that owner holds an array. -/
def isShared (s : Session) (owner : Nat) (array : ArrayId) : Bool :=
  (s.snapshots.values.any fun v => v.array == array) ||
  (s.iterators.values.any fun it => (heldBy it).any fun v => v.array == array) ||
  (s.sets.values.any fun set => set.owner != owner && set.array == array) ||
  (s.bags.values.any fun b => b.owner != owner && (Leaf.bag b).array? == some array)

/-- Whether anything but the store itself holds the array that a change of it would write to. -/
def leafShared (s : Session) (owner : Nat) (leaf : Leaf) : Bool :=
  match leaf.array? with
  | some array => s.isShared owner array
  | none => false

/-- Let each bag that an iterator was bound to remember the array of that snapshot. -/
def settleBags (s : Session) : Session :=
  let held := s.iterators.values.flatMap heldBy
  { s with bags := s.bags.map fun p =>
      (p.1, if held.any fun v => v.array == p.2.snapshot.array then p.2.settled else p.2) }

end Session

/-! ### Commands -/

/-- A command: it fails or answers, and what it changed before stays changed. -/
abbrev Action (α : Type) := ExceptT Failure (StateM Session) α

namespace Action

/-- An outcome of the library. -/
def ofExcept (r : Except Error α) : Action α :=
  match r with
  | .ok a => return a
  | .error e => throw (.error e)

/-- Something read from a document. -/
def ofRead (r : Option α) : Action α :=
  match r with
  | some a => return a
  | none => throw .unreadable

/-- The object of a name. -/
def find (table : Session → Table α) (name : String) : Action α := do
  match (table (← get)).find? name with
  | some a => return a
  | none => throw (.missing name)

/-- A new serial number. -/
def freshSerial : Action Nat := do
  let s ← get
  set { s with serial := s.serial + 1 }
  return s.serial

/-- Change the session, and leave to the iterators what stores held that go away by it. -/
def replacing (f : Session → Session) : Action Unit :=
  modify fun s => Session.retire s (f s)

end Action
end FeatureIndex
