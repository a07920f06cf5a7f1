import FeatureIndex.Repository

/-!
# Analysis structures

A `Cas` holds the analysis of one document: a type system, a source of ids, and named views, each
with a repository of its own over the same index definitions. The initial view is always there.

A `Pool` lends out a fixed number of them over one type system; what comes back is reset.
-/

namespace FeatureIndex

/-- A named view. `serial` tells it apart from every other view that its `Cas` has had. -/
structure View where
  serial : Nat
  name : String
  repository : Repository

/-- The analysis of one document. `serial` tells it apart from every other one; `positions` is the
table of names, which says where the view of each name stands; `created` counts the views that it
has had. -/
structure Cas where
  serial : Nat
  system : TypeSystem
  config : Config
  definitions : List Definition
  ids : IdAllocator
  views : List View
  positions : List (String × Nat)
  created : Nat

/-- Where a leaf is found in a `Cas`. -/
structure Cas.Address where
  view : Nat
  leaf : Repository.Address
  deriving DecidableEq

namespace Cas

/-- Name of the initial view. -/
def initialName : String := "_InitialView"

/-! ### Views -/

/-- Where the view of a name stands. -/
def position? (c : Cas) (name : String) : Option Nat :=
  (c.positions.find? fun p => p.1 == name).map (·.2)

/-- The repository that a new view starts with. -/
def blank (c : Cas) : Except Error Repository := do
  (← Repository.empty c.system c.config).defineAll c.definitions

/-- Put a view behind those that there are. -/
def addView (c : Cas) (name : String) (repository : Repository) : Cas :=
  { c with
    views := c.views ++ [⟨c.created, name, repository⟩]
    positions := c.positions ++ [(name, c.views.length)]
    created := c.created + 1 }

/-- Create a view with all defined indexes. -/
def createView (c : Cas) (name : String) : Except Error Unit × Cas :=
  if (c.position? name).isSome then (.error (.duplicateView name), c)
  else
    match c.blank with
    | .ok repository => (.ok (), c.addView name repository)
    | .error e => (.error e, c)

/-- A `Cas` with its initial view. -/
def create (ts : TypeSystem) (definitions : List Definition) (config : Config) (serial : Nat) :
    Except Error Cas :=
  match createView ⟨serial, ts, config, definitions, .fresh, [], [], 0⟩ initialName with
  | (.ok (), c) => .ok c
  | (.error e, _) => .error e

/-- The view of a name. -/
def view (c : Cas) (name : String) : Except Error View :=
  match (c.position? name).bind fun i => c.views[i]? with
  | some v => .ok v
  | none => .error (.unknownView name)

/-- The initial view. -/
def initialView? (c : Cas) : Option View := c.views.head?

/-- Change the repository of one view. -/
def updateView (c : Cas) (serial : Nat) (f : Repository → Repository) : Cas :=
  { c with views := c.views.map fun v =>
      if v.serial = serial then { v with repository := f v.repository } else v }

/-- What a leaf holds now, as long as its view exists. -/
def snapshot? (c : Cas) (a : Address) : Option Snapshot :=
  (c.views.find? fun v => v.serial == a.view).map fun v => v.repository.snapshot a.leaf

/-! ### Structures -/

/-- Start a structure with a fresh id. A type that does not exist takes no id. -/
def createStructure (c : Cas) (type : TypeCode) : Except Error Draft × Cas :=
  match c.system.info type with
  | .error e => (.error e, c)
  | .ok _ =>
    match c.ids.allocate with
    | (.ok id, ids) => (Draft.start c.system id type, { c with ids })
    | (.error e, ids) => (.error e, { c with ids })

/-! ### Starting over -/

/-- Keep the initial view only, and empty it. Ids go on. -/
def reset (c : Cas) : Cas :=
  { c with
    views := (c.views.take 1).map fun v => { v with repository := v.repository.reset }
    positions := c.positions.filter fun p => p.2 == 0 }

end Cas

/-- A fixed number of `Cas` over one type system. `free` lists those at hand, the next one to leave
first. -/
structure Pool where
  system : TypeSystem
  capacity : Nat
  free : List Cas

namespace Pool

/-- Create `n` instances on top of those at hand. -/
def fill (ts : TypeSystem) (definitions : List Definition) (config : Config) :
    Nat → Nat → List Cas → Except Error (List Cas)
  | 0, _, free => .ok free
  | n + 1, serial, free => do
    let cas ← Cas.create ts definitions config serial
    fill ts definitions config n (serial + 1) (cas :: free)

/-- A full pool. Its instances have the serial numbers from `serial` on. -/
def create (capacity : Nat) (ts : TypeSystem) (definitions : List Definition) (config : Config)
    (serial : Nat) : Except Error Pool := do
  return ⟨ts, capacity, ← fill ts definitions config capacity serial []⟩

/-- How many containers are ready to be lent out. -/
def available (p : Pool) : Nat := p.free.length

/-- Take the instance that came last. -/
def checkout (p : Pool) : Option (Cas × Pool) :=
  match p.free with
  | [] => none
  | cas :: free => some (cas, { p with free })

/-- Take an instance back. One over another type system is refused, and any when the pool is
full. -/
def release (p : Pool) (cas : Cas) : Except Error Pool :=
  if cas.system.uid ≠ p.system.uid then .error (.foreignTypeSystem .released)
  else if p.capacity ≤ p.available then .error (.capacityExhausted p.capacity)
  else .ok { p with free := cas.reset :: p.free }

end Pool
end FeatureIndex
