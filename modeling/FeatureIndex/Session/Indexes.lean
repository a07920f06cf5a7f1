import FeatureIndex.Session.Reference

/-!
# Commands on indexes, repositories and analysis structures
-/

namespace FeatureIndex.Session

/-! ### Indexes -/

/-- Tunables as they were given: none, or what could be read. -/
abbrev ConfigRead := Option (Option Config)

/-- The tunables, or the defaults when none were given. -/
def readConfig : ConfigRead → Action Config
  | none => return {}
  | some c => Action.ofRead c

/-- Make a standalone index. -/
def newIndex (name definition : String) (config : ConfigRead) : Action Unit := do
  let d ← Action.find definitions definition
  let ix ← Action.ofExcept (Index.empty d (← readConfig config))
  let serial ← Action.freshSerial
  Action.replacing fun s => { s with indexes := s.indexes.put name (serial, ix) }

/-- Add a structure to one index. -/
def indexInsert (r : IndexRef) (fs : FeatureStructure) : Action Bool := do
  let (site, ix) ← r.locate
  let (outcome, ix) := ix.insert fs
  site.put ix
  Action.ofExcept outcome

/-- Remove a structure from one index. -/
def indexErase (r : IndexRef) (fs : FeatureStructure) : Action Bool := do
  let (site, ix) ← r.locate
  let (removed, ix) := ix.erase fs
  site.put ix
  return removed

/-- Empty one index. -/
def indexClear (r : IndexRef) : Action Unit := do
  let (site, ix) ← r.locate
  site.put ix.clear

/-! ### Repositories -/

/-- Make a standalone repository. -/
def newRepository (name system : String) (config : ConfigRead) : Action Unit := do
  let ts ← Action.find systems system
  let r ← Action.ofExcept (Repository.empty ts (← readConfig config))
  let serial ← Action.freshSerial
  Action.replacing fun s => { s with repositories := s.repositories.put name (serial, r) }

/-- Define an index in a standalone repository. -/
def repositoryDefine (name definition : String) : Action Index := do
  let d ← Action.find definitions definition
  let (site, r) ← (Place.standalone name).locate
  let (outcome, r) := r.define d
  site.put r
  Action.ofExcept outcome
  Action.ofExcept (r.index d.label)

/-- Add a structure to a repository. -/
def repositoryInsert (p : Place) (fs : FeatureStructure) : Action Bool := do
  let (site, r) ← p.locate
  let (outcome, r) := r.insert fs
  site.put r
  Action.ofExcept outcome

/-- Remove a structure from a repository. -/
def repositoryErase (p : Place) (fs : FeatureStructure) : Action Bool := do
  let (site, r) ← p.locate
  let (removed, r) := r.erase fs
  site.put r
  return removed

/-- Remove all structures of a type. -/
def repositoryEraseType (p : Place) (type : TypeRef) (withSubtypes : Bool) : Action Nat := do
  let (site, r) ← p.locate
  let t ← type.resolve r.system
  let (count, r) := r.eraseType t withSubtypes
  site.put r
  Action.ofExcept count

/-- Empty a repository. -/
def repositoryReset (p : Place) : Action Unit := do
  let (site, r) ← p.locate
  site.put r.reset

/-! ### Analysis structures -/

/-- Make a `Cas`. -/
def newCas (name system : String) (defs : List String) (config : ConfigRead) : Action Unit := do
  let ts ← Action.find systems system
  let defs ← defs.mapM (Action.find definitions)
  let config ← readConfig config
  let c ← Action.ofExcept (Cas.create ts defs config (← Action.freshSerial))
  Action.replacing fun s => { s with instances := s.instances.put name c }

/-- Create a view. -/
def newView (cas name : String) : Action View := do
  let c ← Action.find instances cas
  let (outcome, c) := c.createView name
  modify fun s => { s with instances := s.instances.put cas c }
  Action.ofExcept outcome
  Action.ofExcept (c.view name)

/-- Start a `Cas` over. -/
def resetCas (name : String) : Action Unit := do
  let c ← Action.find instances name
  Action.replacing fun s => { s with instances := s.instances.put name c.reset }

/-- Make a pool. -/
def newPool (name system : String) (capacity : Nat) (defs : List String) (config : ConfigRead) :
    Action Unit := do
  let ts ← Action.find systems system
  let defs ← defs.mapM (Action.find definitions)
  let config ← readConfig config
  let serial := (← get).serial
  let p ← Action.ofExcept (Pool.create capacity ts defs config serial)
  modify fun s => { s with serial := serial + capacity }
  Action.replacing fun s => { s with pools := s.pools.put name p }

/-- Take a `Cas` out of a pool, if there is one. -/
def checkout (pool name : String) : Action (Option Cas) := do
  let p ← Action.find pools pool
  match p.checkout with
  | none => return none
  | some (c, p) =>
    Action.replacing fun s =>
      { s with pools := s.pools.put pool p, instances := s.instances.put name c }
    return some c

/-- Give a `Cas` back to a pool. One that is refused stays where it was. -/
def release (pool name : String) : Action Unit := do
  let p ← Action.find pools pool
  let c ← Action.find instances name
  match p.release c with
  | .ok p =>
    Action.replacing fun s =>
      { s with pools := s.pools.put pool p, instances := s.instances.erase name }
  | .error e => throw (.notReleased e)

end FeatureIndex.Session
