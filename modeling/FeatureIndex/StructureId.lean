import FeatureIndex.Error
import FeatureIndex.Document

/-!
# Structure ids

A feature structure is known by a positive id. An `IdAllocator` hands out `1, 2, 3, …`, as long as
its count fits into a word.
-/

namespace FeatureIndex

/-- The id of a feature structure. -/
structure StructureId where
  val : Nat
  pos : 0 < val
  deriving DecidableEq

namespace StructureId

/-- The id of a number; zero is none. -/
def ofNat (n : Nat) : Except Error StructureId :=
  if h : 0 < n then .ok ⟨n, h⟩ else .error .invalidStructureId

/-- Read an id from a document: a positive whole number of at most 64 bits. -/
def ofDocument? (d : Document) : Option StructureId :=
  (d.count? 0x10000000000000000).bind fun n => (ofNat n).toOption

/-- Ids are ordered by their number. -/
def compare (a b : StructureId) : Ordering := Ord.compare a.val b.val

/-- The text of an id. -/
def debug (i : StructureId) : String := s!"FsId({i.val})"

end StructureId

/-- A source of fresh ids: the number that the next one has. -/
structure IdAllocator where
  next : UInt64
  pos : 0 < next.toNat
  deriving DecidableEq

namespace IdAllocator

/-- A source that has handed out nothing. -/
def fresh : IdAllocator := ⟨1, by decide⟩

/-- How many ids a source has handed out. -/
def allocated (a : IdAllocator) : Nat := a.next.toNat - 1

/-- How many ids a source has to hand out: neither zero nor the last number is one of them. -/
def limit : Nat := UInt64.size - 2

/-- What a source that is used up answers. -/
def exhausted : Error := .capacityExhausted (UInt64.size - 1)

theorem toNat_succ {n : UInt64} (h : n.toNat + 1 < UInt64.size) : (n + 1).toNat = n.toNat + 1 :=
  (UInt64.toNat_add n 1).trans (Nat.mod_eq_of_lt h)

/-- Hand out the next id, as long as there is a number after it. -/
def allocate (a : IdAllocator) : Except Error StructureId × IdAllocator :=
  if h : a.next.toNat + 1 < UInt64.size then
    (.ok ⟨a.next.toNat, a.pos⟩, ⟨a.next + 1, toNat_succ h ▸ Nat.succ_pos _⟩)
  else (.error exhausted, a)

end IdAllocator
end FeatureIndex
