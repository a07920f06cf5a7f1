import FeatureIndex.KeySpec
import FeatureIndex.Structure

/-!
# Comparators

A comparator orders structures of a type and its subtypes by a list of keys, compared in turn.
Structures that agree on every key are *key-equal*; `compareFully` tells those apart by their ids.

A key reads a slot directly, so that any two structures compare, whatever their types: a structure
without the slot stands before one that has it, in the direction of the key. A slot is found once,
when a `Comparator.Builder` is given the name of a feature.
-/

namespace FeatureIndex

/-- A key of a comparator: the slot of a feature, or the linear order of types. -/
inductive Key where
  | feature (name : String) (slot : Nat) (direction : Direction)
  | typePriority
  deriving DecidableEq

/-- An order on structures. -/
structure Comparator where
  system : TypeSystem
  type : TypeCode
  keys : List Key

namespace Key

/-- A missing slot stands before every value. -/
def compareSlots : Option Value → Option Value → Ordering
  | some x, some y => x.totalCmp y
  | none, some _ => .lt
  | some _, none => .gt
  | none, none => .eq

/-- Compare by one key. -/
def compare (ts : TypeSystem) (a b : FeatureStructure) : Key → Ordering
  | feature _ slot direction => direction.apply (compareSlots (a.valueAt slot) (b.valueAt slot))
  | typePriority => Ord.compare (ts.priority a.type) (ts.priority b.type)

/-- The text of a key. -/
def debug : Key → String
  | feature name slot direction =>
    Text.record "Feature" [
      ("name", Text.quote name),
      ("slot", toString slot),
      ("order", direction.name)]
  | typePriority => "TypePriority"

end Key

namespace Comparator

/-- A comparator in the making: the keys so far, and the first error that came up. -/
structure Builder where
  system : TypeSystem
  type : TypeCode
  keys : List Key
  error : Option Error

namespace Builder

/-- A comparator of a type, without keys yet. -/
def start (ts : TypeSystem) (type : TypeCode) : Builder := ⟨ts, type, [], none⟩

/-- Order by a feature next. Once a feature was not found, no other one is looked up. -/
def feature (b : Builder) (name : String) (direction : Direction) : Builder :=
  match b.error with
  | some _ => b
  | none =>
    match b.system.feature b.type name with
    | .ok f => { b with keys := b.keys ++ [.feature name f.slot direction] }
    | .error e => { b with error := some e }

/-- Order by the linear order of types next. -/
def typePriority (b : Builder) : Builder := { b with keys := b.keys ++ [.typePriority] }

/-- Order by a key next. -/
def add (b : Builder) : KeySpec → Builder
  | .feature name direction => b.feature name direction
  | .typePriority => b.typePriority

/-- The finished comparator. The error that came up is reported, and otherwise a type that does not
exist. -/
def build (b : Builder) : Except Error Comparator :=
  match b.error with
  | some e => .error e
  | none => do
    let _ ← b.system.info b.type
    return ⟨b.system, b.type, b.keys⟩

end Builder

/-- The comparator of a type with the given keys. -/
def ofKeys (ts : TypeSystem) (type : TypeCode) (keys : List KeySpec) : Except Error Comparator :=
  (keys.foldl Builder.add (.start ts type)).build

/-- The comparator without keys: all structures are key-equal, and the id alone tells them apart. -/
def identity (ts : TypeSystem) (type : TypeCode) : Comparator := ⟨ts, type, []⟩

/-- Compare by keys in turn; the first that differs decides. -/
def compareKeys (ts : TypeSystem) (a b : FeatureStructure) : List Key → Ordering
  | [] => .eq
  | k :: rest => (k.compare ts a b).then (compareKeys ts a b rest)

/-- The key order. -/
def compare (c : Comparator) (a b : FeatureStructure) : Ordering := compareKeys c.system a b c.keys

/-- The key order, and the order of ids between key-equal structures. -/
def compareFully (c : Comparator) (a b : FeatureStructure) : Ordering :=
  (c.compare a b).then (a.id.compare b.id)

/-- Whether two comparators order alike: the same keys over the same type system. The types they
were made for do not count. -/
def ordersLike (c d : Comparator) : Bool := c.system.uid == d.system.uid && c.keys == d.keys

/-- The text of a comparator. -/
def debug (c : Comparator) : String :=
  Text.record "FsComparator" [
    ("ty", Text.quote (c.system.name c.type)),
    ("keys", Text.bracketed (c.keys.map Key.debug))]

end Comparator
end FeatureIndex
