import FeatureIndex.Session.Reference
import FeatureIndex.TypeSystem.Commit

/-!
# Commands on types and structures

Declaring types step by step or all at once, building structures one by one or in rows, and making
comparators, definitions and constraints.
-/

namespace FeatureIndex.Session

/-! ### Type systems -/

/-- Start with the root type alone. -/
def newBuilder (name : String) : Action Unit :=
  modify fun s => { s with builders := s.builders.put name .root }

/-- Keep declarations under a name. -/
def setBuilder (name : String) (d : Declarations) : Action Unit :=
  modify fun s => { s with builders := s.builders.put name d }

/-- Declare the annotation type. -/
def declareAnnotationType (builder : String) : Action TypeCode := do
  let d ← Action.find builders builder
  let (t, d) ← Action.ofExcept d.withAnnotationType
  setBuilder builder d
  return t

/-- Declare a type. -/
def declareType (builder name : String) (supertype : TypeRef) : Action TypeCode := do
  let d ← Action.find builders builder
  let supertype ← supertype.resolveIn d
  let (t, d) ← Action.ofExcept (d.addType name supertype)
  setBuilder builder d
  return t

/-- Declare a feature. -/
def declareFeature (builder : String) (type : TypeRef) (name : String) (range : Option ValueRange) :
    Action Unit := do
  let d ← Action.find builders builder
  let type ← type.resolveIn d
  let range ← Action.ofRead range
  setBuilder builder (← Action.ofExcept (d.addFeature type name range))

/-- Say which types come first. -/
def declarePriorities (builder : String) (order : List TypeRef) : Action Unit := do
  let d ← Action.find builders builder
  setBuilder builder (d.withPriorities (← order.mapM (·.resolveIn d)))

/-- Keep a type system made of declarations. -/
def keepSystem (name : String) (d : Declarations) : Action TypeSystem := do
  let ts ← Action.ofExcept (d.commit (← Action.freshSerial))
  modify fun s => { s with systems := s.systems.put name ts }
  return ts

/-- Make a type system of what a builder has. The builder stays as it is. -/
def commit (builder name : String) : Action TypeSystem := do
  keepSystem name (← Action.find builders builder)

/-- A type to declare with its features. -/
structure TypeRow where
  name : String
  supertype : TypeRef
  features : List (String × Option ValueRange)

/-- Declare a type with its features. -/
def declareRow (d : Declarations) (row : TypeRow) : Action Declarations := do
  let supertype ← row.supertype.resolveIn d
  let (t, d) ← Action.ofExcept (d.addType row.name supertype)
  row.features.foldlM (fun d f => do Action.ofExcept (d.addFeature t f.1 (← Action.ofRead f.2))) d

/-- Make a type system of rows, with the annotation type first if asked for. The first failure
counts, and nothing is kept then. -/
def declare (name : String) (annotated : Bool) (rows : List TypeRow) (order : List TypeRef) :
    Action TypeSystem := do
  let d ← if annotated then Prod.snd <$> Action.ofExcept Declarations.root.withAnnotationType
    else pure Declarations.root
  let d ← rows.foldlM declareRow d
  keepSystem name (d.withPriorities (← order.mapM (·.resolveIn d)))

/-! ### Structures -/

/-- Where the id of a new structure comes from. -/
inductive Origin where
  | cas (name : String)
  | system (name : String)

/-- Set features in turn. -/
def setFeatures (d : Draft) (values : List (String × Value)) : Except Error Draft :=
  values.foldlM (fun d v => d.set v.1 v.2) d

/-- Build a structure and keep it. One from a `Cas` takes its next id as soon as the type is known,
even when a value is refused. -/
def build (name : String) (origin : Origin) (type : TypeRef) (id : Nat)
    (values : List (String × Value)) : Action FeatureStructure := do
  let draft ← match origin with
    | .cas cas => do
      let c ← Action.find instances cas
      let t ← type.resolve c.system
      let (draft, c) := c.createStructure t
      modify fun s => { s with instances := s.instances.put cas c }
      Action.ofExcept draft
    | .system system => do
      let ts ← Action.find systems system
      let t ← type.resolve ts
      let id ← Action.ofExcept (StructureId.ofNat id)
      Action.ofExcept (Draft.start ts id t)
  let fs := (← Action.ofExcept (setFeatures draft values)).build
  modify fun s => { s with structures := s.structures.put name fs }
  return fs

/-! ### Orders and definitions -/

/-- Make a comparator and keep it. -/
def newComparator (name system : String) (type : TypeRef) (keys : List (Option KeySpec)) :
    Action Comparator := do
  let ts ← Action.find systems system
  let t ← type.resolve ts
  let keys ← keys.mapM Action.ofRead
  let c ← Action.ofExcept (Comparator.ofKeys ts t keys)
  modify fun s => { s with comparators := s.comparators.put name c }
  return c

/-- Make a comparator without keys and keep it. -/
def newIdentity (name system : String) (type : TypeRef) : Action Comparator := do
  let ts ← Action.find systems system
  let c := Comparator.identity ts (← type.resolve ts)
  modify fun s => { s with comparators := s.comparators.put name c }
  return c

/-- What a definition is made from. -/
inductive DefinitionSource where
  | keyed (kind : IndexKind) (label comparator : String)
  | bag (label system : String) (type : TypeRef)
  | annotationIndex (system : String)
  | spec (system : String) (described : Option IndexSpec)

/-- Make a definition. A specification that cannot be read fails before its type system is looked
up. -/
def DefinitionSource.make : DefinitionSource → Action Definition
  | keyed kind label comparator => do
    return ⟨label, kind, ← Action.find comparators comparator, none⟩
  | bag label system type => do
    let ts ← Action.find systems system
    return .bag label ts (← type.resolve ts)
  | annotationIndex system => do
    let ts ← Action.find systems system
    Action.ofExcept (Definition.annotationIndex ts)
  | spec system described => do
    let described ← Action.ofRead described
    let ts ← Action.find systems system
    Action.ofExcept (described.resolve ts)

/-- Make a definition, with a policy if one is given, and keep it. -/
def define (name : String) (source : DefinitionSource) (policy : Option (Option DuplicatePolicy)) :
    Action Definition := do
  let d ← source.make
  let d ← match policy with
    | none => pure d
    | some policy => do pure (d.withPolicy (← Action.ofRead policy))
  modify fun s => { s with definitions := s.definitions.put name d }
  return d

/-- A condition over a type system. -/
def constraint (system : String) (selector : Selector) : Action (TypeSystem × Constraint) := do
  let ts ← Action.find systems system
  return (ts, ← selector.resolve ts)

end FeatureIndex.Session
