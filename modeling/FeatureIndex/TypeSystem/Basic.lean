import FeatureIndex.TypeSystem.Declarations

/-!
# Type systems

A committed type system answers questions about its types and never changes. Its types are listed in
pre-order, a type before its subtypes and siblings in the order of their declaration, so that the
subtypes of a type form one stretch of that list: `subsumes` compares positions, and `subtypes?`
cuts the stretch out.

Two type systems are the same only when they come from the same commit; `uid` tells commits apart.
-/

namespace FeatureIndex

/-- A feature as seen from one type. -/
structure Feature where
  name : String
  range : ValueRange
  slot : Nat
  declaredOn : TypeCode
  deriving DecidableEq

/-- What a type system knows about one type. The features are all visible ones, inherited ones
first. -/
structure TypeInfo where
  name : String
  supertype : Option TypeCode
  directSubtypes : List TypeCode
  features : List Feature

/-- A committed type system. `spans` gives, for each type, where its stretch of the pre-order starts
and where it has ended; `ranks` gives the place of each type in the linear order of types. -/
structure TypeSystem where
  uid : Nat
  types : List TypeInfo
  preorder : List TypeCode
  spans : List (Nat × Nat)
  ranks : List Nat

namespace TypeSystem

/-- How many types there are. -/
def size (ts : TypeSystem) : Nat := ts.types.length

/-- What is known about a type. -/
def info (ts : TypeSystem) (t : TypeCode) : Except Error TypeInfo :=
  match ts.types[t.index]? with
  | some info => .ok info
  | none => .error (.invalidTypeCode t.code)

/-- The type of that name; names are distinct. -/
def typeByName (ts : TypeSystem) (name : String) : Except Error TypeCode :=
  match ts.types.findIdx? fun t => t.name == name with
  | some i => .ok ⟨i⟩
  | none => .error (.unknownType name)

/-- The name of a type; a code from elsewhere has a stand-in. -/
def name (ts : TypeSystem) (t : TypeCode) : String :=
  match ts.types[t.index]? with
  | some info => info.name
  | none => "<invalid>"

/-- The supertype of a type other than the root. -/
def supertype? (ts : TypeSystem) (t : TypeCode) : Option TypeCode :=
  ts.types[t.index]?.bind (·.supertype)

/-- Whether `sub` is `sup` or lies below it: whether its place in the pre-order falls into the
stretch of `sup`. -/
def subsumes (ts : TypeSystem) (sup sub : TypeCode) : Bool :=
  match ts.spans[sup.index]?, ts.spans[sub.index]? with
  | some (first, past), some (place, _) => first ≤ place && place < past
  | _, _ => false

/-- A type and everything below it, in pre-order. -/
def subtypes (ts : TypeSystem) (t : TypeCode) : Except Error (List TypeCode) :=
  match ts.spans[t.index]? with
  | some (first, past) => .ok ((ts.preorder.take past).drop first)
  | none => .error (.invalidTypeCode t.code)

/-- The feature of that name on a type, declared there or inherited. -/
def feature (ts : TypeSystem) (t : TypeCode) (name : String) : Except Error Feature := do
  let info ← ts.info t
  match info.features.find? fun f => f.name == name with
  | some f => .ok f
  | none => .error (.unknownFeature info.name name)

/-- The rank that a code from elsewhere has in the linear order of types, after all others. -/
def lastRank : Nat := 4294967295

/-- The place of a type in the linear order of types; less is earlier. -/
def priority (ts : TypeSystem) (t : TypeCode) : Nat :=
  (ts.ranks[t.index]?).getD lastRank

/-- The names of all types, in pre-order. -/
def debug (ts : TypeSystem) : String :=
  "TypeSystem" ++ Text.bracketed (ts.preorder.map ts.name)

end TypeSystem
end FeatureIndex
