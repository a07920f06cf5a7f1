import FeatureIndex.Session.Indexes
import FeatureIndex.Session.Stores
import FeatureIndex.Session.Types

/-!
# Commands on iterators

An iterator is kept under a name and works on the stores that its sources stand for. Making an
iterator of others works on copies of them.
-/

namespace FeatureIndex.Session

/-- Keep an iterator. The bags that it is bound to remember their arrays. -/
def keepIterator (name : String) (it : Iter Source) : Action (Iter Source) := do
  modify fun s => settleBags { s with iterators := s.iterators.put name it }
  return it

/-! ### Making iterators -/

/-- Iterate over a free store. -/
def iterateStore (name : String) (r : StoreRef) : Action (Iter Source) := do
  let (owner, leaf) ← r.locate
  keepIterator name <| match leaf with
    | .ordered set => .sorted (.start (.store owner) set.comparator set.snapshot)
    | .bag b => .bag (.start (.store owner) b.snapshot)

/-- Iterate over an index, over its own type or another one. -/
def iterateIndex (name : String) (r : IndexRef) (type : Option TypeRef) (withSubtypes : Bool) :
    Action (Iter Source) := do
  let (site, ix) ← r.locate
  let t ← match type with
    | some type => type.resolve ix.system
    | none => pure ix.type
  let it ← Action.ofExcept (ix.iterate t withSubtypes)
  keepIterator name (it.map site.source)

/-- Iterate over an index of a repository, over its own type or another one. -/
def iterate (name : String) (p : Place) (label : String) (type : Option TypeRef)
    (withSubtypes : Bool) : Action (Iter Source) := do
  let (site, r) ← p.locate
  let it ← match type with
    | some type => do
      let t ← type.resolve r.system
      Action.ofExcept (r.iterate label t withSubtypes)
    | none => Action.ofExcept (r.iterateOwn label withSubtypes)
  keepIterator name (it.map site.source)

/-- Iterate over all structures of a type in a repository. -/
def iterateAll (name : String) (p : Place) (type : TypeRef) (withSubtypes : Bool) :
    Action (Iter Source) := do
  let (site, r) ← p.locate
  let t ← type.resolve r.system
  let it ← Action.ofExcept (r.iterateAll t withSubtypes)
  keepIterator name (it.map site.source)

/-- Iterate over the structures of a type in an index that meet a condition. -/
def iterateWhere (name : String) (p : Place) (label : String) (type : TypeRef) (withSubtypes : Bool)
    (selector : Selector) : Action (Iter Source) := do
  let (site, r) ← p.locate
  let t ← type.resolve r.system
  let c ← selector.resolve r.system
  let it ← Action.ofExcept (r.iterate label t withSubtypes)
  keepIterator name ((it.map site.source).filter fun fs => c.accepts r.system fs)

/-- A second iterator at the same place. -/
def copyIterator (source name : String) : Action (Iter Source) := do
  keepIterator name (← Action.find iterators source)

/-- A copy behind a condition. -/
def filterIterator (source name system : String) (selector : Selector) : Action (Iter Source) := do
  let it ← Action.find iterators source
  let (ts, c) ← constraint system selector
  keepIterator name (it.filter fun fs => c.accepts ts fs)

/-- Merge copies of sorted iterators. -/
def mergeIterators (name : String) (subs : List String) : Action (Iter Source) := do
  let subs ← subs.mapM (Action.find iterators)
  let subs ← subs.mapM fun
    | .sorted c => pure c
    | _ => throw (.malformed "not a sorted iterator")
  keepIterator name (← Action.ofExcept (Iter.ofSorted subs))

/-- Concatenate copies of iterators. The comparator is looked up before the iterators, and the kind
is read last. -/
def concatIterators (name : String) (subs : List String) (comparator : String)
    (kind : Option IndexKind) : Action (Iter Source) := do
  let c ← Action.find comparators comparator
  let subs ← subs.mapM (Action.find iterators)
  let kind ← Action.ofRead kind
  keepIterator name (Iter.ofList subs c kind)

/-! ### Moving iterators -/

/-- A move of an iterator; a target is given by the name of a structure. -/
inductive Move where
  | step (s : Step)
  | rebindFirst
  | rebindLast
  | rebindTo (target : String)

/-- Look up what a move needs, and tell how it changes an iterator. -/
def Move.resolve (live : Source → Snapshot) : Move → Action (Iter Source → Iter Source)
  | step s => return fun it => it.step s
  | rebindFirst => return fun it => it.rebind live .first
  | rebindLast => return fun it => it.rebind live .last
  | rebindTo target => do
    let fs ← Action.find structures target
    return fun it => it.rebind live (.toward fs)

/-- Every state on the way through some moves. -/
def path (moves : List (Iter Source → Iter Source)) (it : Iter Source) : List (Iter Source) :=
  match moves with
  | [] => []
  | move :: rest => move it :: path rest (move it)

/-- Move an iterator, and tell where it stood after each move. -/
def moveIterator (name : String) (moves : List Move) : Action (List (Iter Source)) := do
  let it ← Action.find iterators name
  let moves ← moves.mapM (·.resolve (← get).live)
  let states := path moves it
  discard (keepIterator name (states.getLast?.getD it))
  return states

/-- Collect all present elements; the iterator stands behind them. -/
def collectAll (name : String) : Action (List FeatureStructure) := do
  let it ← Action.find iterators name
  let (found, it) := it.collect (← get).live
  discard (keepIterator name it)
  return found

/-- Collect up to `limit` elements from where a copy of an iterator stands, and the copy behind
them. -/
def collectForward (name : String) (limit : Option Nat) :
    Action (List FeatureStructure × Iter Source) := do
  let it ← Action.find iterators name
  return it.take (min (limit.getD it.span) it.span)

/-- The element of an iterator that is taken to be valid. -/
def current (name : String) : Action FeatureStructure := do
  match (← Action.find iterators name).element? with
  | some fs => return fs
  | none => throw .unpositioned

/-! ### Comparing iterators -/

/-- Compare two iterators; the first one may be put behind a condition before. -/
def compareIterators (a b : String) (condition : Option (String × Selector)) : Action Ordering := do
  let x ← Action.find iterators a
  let y ← Action.find iterators b
  let x ← match condition with
    | none => pure x
    | some (system, selector) => do
      let (ts, c) ← constraint system selector
      pure (x.filter fun fs => c.accepts ts fs)
  Action.ofExcept (x.compareTo y)

end FeatureIndex.Session
