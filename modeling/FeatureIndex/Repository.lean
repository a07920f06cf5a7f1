import FeatureIndex.Index

/-!
# Repositories

A repository keeps the indexes over one type system. Besides the defined indexes it keeps a bag of
all structures added to it: that bag answers whether a structure is held, and fills an index that is
defined when structures are there already.
-/

namespace FeatureIndex

/-- The indexes over one type system, and the bag of everything. -/
structure Repository where
  system : TypeSystem
  config : Config
  indexes : List Index
  all : Index

/-- Where a leaf is found in a repository: in the index of a label, or in the bag of everything. -/
structure Repository.Address where
  label : Option String
  type : TypeCode
  deriving DecidableEq

namespace Repository

/-- Label of the bag of everything. -/
def allLabel : String := "_all"

/-- A repository without indexes. -/
def empty (ts : TypeSystem) (config : Config) : Except Error Repository := do
  return ⟨ts, config, [], ← Index.empty (.bag allLabel ts .top) config⟩

/-- The labels of the defined indexes, in the order of their definition. -/
def labels (r : Repository) : List String := r.indexes.map Index.label

/-- The index of a label. No two have the same: a definition with a label in use is refused. -/
def index (r : Repository) (label : String) : Except Error Index :=
  match r.indexes.find? fun ix => ix.label == label with
  | some ix => .ok ix
  | none => .error (.unknownIndex label)

/-- How many structures the repository holds. -/
def size (r : Repository) : Nat := r.all.size

/-- Whether a structure is held. -/
def contains (r : Repository) (fs : FeatureStructure) : Bool := r.all.contains fs

/-! ### Iterating -/

/-- What a leaf holds now. -/
def snapshot (r : Repository) (a : Address) : Snapshot :=
  match a.label with
  | none => r.all.snapshot a.type
  | some label =>
    match r.index label with
    | .ok ix => ix.snapshot a.type
    | .error _ => .empty

/-- An iterator over the type of an index. -/
def iterateOwn (r : Repository) (label : String) (withSubtypes : Bool) :
    Except Error (Iter Address) := do
  let ix ← r.index label
  return (← ix.iterateOwn withSubtypes).map fun t => ⟨some label, t⟩

/-- An iterator over a type in an index. -/
def iterate (r : Repository) (label : String) (t : TypeCode) (withSubtypes : Bool) :
    Except Error (Iter Address) := do
  let ix ← r.index label
  return (← ix.iterate t withSubtypes).map fun t => ⟨some label, t⟩

/-- An iterator over all structures of a type. -/
def iterateAll (r : Repository) (t : TypeCode) (withSubtypes : Bool) :
    Except Error (Iter Address) := do
  return (← r.all.iterate t withSubtypes).map fun t => ⟨none, t⟩

/-- All structures of a type, as `iterateAll` walks them. -/
def structuresOf (r : Repository) (t : TypeCode) (withSubtypes : Bool) :
    Except Error (List FeatureStructure) := do
  return ((← r.all.iterate t withSubtypes).collect r.all.snapshot).1

/-! ### Defining indexes -/

/-- Add structures to an index in turn. -/
def fill (ix : Index) : List FeatureStructure → Except Error Index
  | [] => .ok ix
  | fs :: rest =>
    match ix.insert fs with
    | (.ok _, ix) => fill ix rest
    | (.error e, _) => .error e

/-- The index of a definition over what the repository holds. A label in use is reported first, then
a definition over another type system, then a type that does not exist. -/
def filled (r : Repository) (d : Definition) : Except Error Index := do
  if r.indexes.any fun ix => ix.label == d.label then
    throw (.duplicateIndexLabel d.label)
  else if d.system.uid ≠ r.system.uid then
    throw (.foreignTypeSystem (.index d.label))
  else
    fill (← Index.empty d r.config) (← r.structuresOf d.type true)

/-- Define an index, behind those that there are. -/
def define (r : Repository) (d : Definition) : Except Error Unit × Repository :=
  match r.filled d with
  | .ok ix => (.ok (), { r with indexes := r.indexes ++ [ix] })
  | .error e => (.error e, r)

/-- Define indexes in turn. -/
def defineAll (r : Repository) : List Definition → Except Error Repository
  | [] => .ok r
  | d :: rest =>
    match r.define d with
    | (.ok (), r) => r.defineAll rest
    | (.error e, _) => .error e

/-! ### Adding and removing -/

/-- Refuse a structure of another type system, or of a type outside this one. -/
def check (r : Repository) (fs : FeatureStructure) : Except Error Unit :=
  if fs.builtFor r.system then (r.system.info fs.type).map fun _ => ()
  else .error (.foreignTypeSystem (.fs fs.id.val))

/-- Add a structure to each index that covers its type, up to the first failure. -/
def insertCovering (fs : FeatureStructure) : List Index → Except Error Unit × List Index
  | [] => (.ok (), [])
  | ix :: rest =>
    if ix.covers fs.type then
      match ix.insert fs with
      | (.ok _, ix) =>
        let (outcome, rest) := insertCovering fs rest
        (outcome, ix :: rest)
      | (.error e, ix) => (.error e, ix :: rest)
    else
      let (outcome, rest) := insertCovering fs rest
      (outcome, ix :: rest)

/-- Add a structure, and tell whether it was new. When an index fails, the structure is taken out of
all indexes again. -/
def insert (r : Repository) (fs : FeatureStructure) : Except Error Bool × Repository :=
  match r.check fs with
  | .error e => (.error e, r)
  | .ok () =>
    match r.all.insert fs with
    | (.ok true, all) =>
      match insertCovering fs r.indexes with
      | (.ok (), indexes) => (.ok true, { r with indexes, all })
      | (.error e, indexes) =>
        (.error e, { r with
          indexes := indexes.map fun ix => (ix.erase fs).2
          all := (all.erase fs).2 })
    | (outcome, all) => (outcome, { r with all })

/-- Remove a structure from everything that covers its type, and tell whether it was held. -/
def erase (r : Repository) (fs : FeatureStructure) : Bool × Repository :=
  match r.all.erase fs with
  | (true, all) =>
    (true, { r with
      indexes := r.indexes.map fun ix => if ix.covers fs.type then (ix.erase fs).2 else ix
      all })
  | (false, all) => (false, { r with all })

/-- Remove structures in turn. -/
def eraseAll (r : Repository) (structures : List FeatureStructure) : Repository :=
  structures.foldl (fun r fs => (r.erase fs).2) r

/-- Remove all structures of a type, and tell how many there were. -/
def eraseType (r : Repository) (t : TypeCode) (withSubtypes : Bool) :
    Except Error Nat × Repository :=
  match r.structuresOf t withSubtypes with
  | .ok structures => (.ok structures.length, r.eraseAll structures)
  | .error e => (.error e, r)

/-- Remove everything. The indexes stay defined. -/
def reset (r : Repository) : Repository :=
  { r with indexes := r.indexes.map Index.clear, all := r.all.clear }

end Repository
end FeatureIndex
