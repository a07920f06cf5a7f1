import FeatureIndex.Session.Basic

/-!
# References in commands

Commands refer to types by name or code, to repositories and indexes by where they are kept, and
describe conditions by trees of tests. Resolving a reference finds what it stands for.
-/

namespace FeatureIndex

/-- A type by name or by code. -/
inductive TypeRef where
  | named (name : String)
  | coded (code : Nat)

namespace TypeRef

/-- The type in a type system. A code is taken as it is, zero apart. -/
def resolve (ts : TypeSystem) : TypeRef → Action TypeCode
  | named name => .ofExcept (ts.typeByName name)
  | coded code => .ofExcept (TypeCode.ofCode code)

/-- The type among declarations. -/
def resolveIn (d : Declarations) : TypeRef → Action TypeCode
  | named name =>
    match d.code? name with
    | some t => return t
    | none => throw (.missing name)
  | coded code => .ofExcept (TypeCode.ofCode code)

end TypeRef

/-- A condition by tests on types and features. A relation that could not be read fails in its
turn. -/
inductive Selector where
  | isType (type : TypeRef)
  | isExactType (type : TypeRef)
  | feature (type : TypeRef) (name : String) (relation : Option Relation) (value : Value)
  | and (a b : Selector)
  | or (a b : Selector)
  | not (c : Selector)

/-- The condition over a type system; tests are resolved from left to right. -/
def Selector.resolve (ts : TypeSystem) : Selector → Action Constraint
  | isType t => return .isType (← t.resolve ts)
  | isExactType t => return .isExactType (← t.resolve ts)
  | feature t name relation value => do
    let t ← t.resolve ts
    let relation ← Action.ofRead relation
    .ofExcept (Constraint.onFeature ts t name relation value)
  | and a b => do
    let a ← a.resolve ts
    let b ← b.resolve ts
    return .and a b
  | or a b => do
    let a ← a.resolve ts
    let b ← b.resolve ts
    return .or a b
  | not c => return .not (← c.resolve ts)

/-- A repository: a standalone one, or that of a view of a `Cas`. -/
inductive Place where
  | standalone (name : String)
  | initialView (cas : String)
  | view (cas name : String)

/-- Where a repository was found, so that it can be put back and its leaves addressed. -/
inductive Site where
  | standalone (name : String) (serial : Nat)
  | view (cas : String) (serial view : Nat)

namespace Site

/-- The source of a leaf of the repository. -/
def source (leaf : Repository.Address) : Site → Source
  | standalone _ serial => .repository serial leaf
  | view _ serial v => .cas serial ⟨v, leaf⟩

/-- Put a changed repository back. -/
def put (r : Repository) : Site → Action Unit
  | standalone name serial =>
    modify fun s => { s with repositories := s.repositories.put name (serial, r) }
  | view cas _ v =>
    modify fun s => { s with instances := s.instances.map fun p =>
      if p.1 == cas then (p.1, p.2.updateView v fun _ => r) else p }

end Site

/-- Find a repository. -/
def Place.locate : Place → Action (Site × Repository)
  | standalone name => do
    let (serial, r) ← Action.find Session.repositories name
    return (.standalone name serial, r)
  | initialView cas => do
    let c ← Action.find Session.instances cas
    match c.initialView? with
    | some v => return (.view cas c.serial v.serial, v.repository)
    | none => throw (.missing cas)
  | view cas name => do
    let c ← Action.find Session.instances cas
    let v ← Action.ofExcept (c.view name)
    return (.view cas c.serial v.serial, v.repository)

/-- An index: a standalone one, or one of a repository by its label. -/
inductive IndexRef where
  | standalone (name : String)
  | within (place : Place) (label : String)

/-- Where an index was found. -/
inductive IndexSite where
  | standalone (name : String) (serial : Nat)
  | within (site : Site) (repository : Repository) (label : String)

namespace IndexSite

/-- The source of the leaf of a type. -/
def source (t : TypeCode) : IndexSite → Source
  | standalone _ serial => .index serial t
  | within site _ label => site.source ⟨some label, t⟩

/-- Put a changed index back. -/
def put (ix : Index) : IndexSite → Action Unit
  | standalone name serial => modify fun s => { s with indexes := s.indexes.put name (serial, ix) }
  | within site r label =>
    site.put { r with
      indexes := r.indexes.map fun other => if other.label == label then ix else other }

end IndexSite

/-- Find an index. -/
def IndexRef.locate : IndexRef → Action (IndexSite × Index)
  | standalone name => do
    let (serial, ix) ← Action.find Session.indexes name
    return (.standalone name serial, ix)
  | within place label => do
    let (site, r) ← place.locate
    let ix ← Action.ofExcept (r.index label)
    return (.within site r label, ix)

end FeatureIndex
