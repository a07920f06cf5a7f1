import FeatureIndex.Cursor.Concat
import FeatureIndex.Cursor.Filtered
import FeatureIndex.Cursor.Merge

/-!
# Iterators

An `Iter` is a cursor of any of the kinds that indexes hand out, nested to any depth. Its leaves
know their stores by addresses of type `σ`; `Iter.map` changes the addresses.

Every move goes through the tree of cursors. A concatenation or a filter may move the cursors inside
it any number of times, so moves are defined along the depth of the tree, which no move changes.
-/

namespace FeatureIndex

/-- A cursor over the contents of one or more stores. -/
inductive Iter (σ : Type) where
  | sorted (c : SortedCursor σ)
  | bag (c : BagCursor σ)
  | merge (m : Merge σ)
  | concat (c : Concat (Iter σ))
  | filtered (f : Filtered (Iter σ))

namespace Iter

/-! ### The tree of cursors -/

mutual

/-- The height of the tree. -/
def depth : Iter σ → Nat
  | sorted _ | bag _ | merge _ => 1
  | concat ⟨subs, _, _, _⟩ => depthAll subs + 1
  | filtered ⟨base, _⟩ => depth base + 1

/-- The height of the highest of some trees. -/
def depthAll : List (Iter σ) → Nat
  | [] => 0
  | it :: rest => max (depth it) (depthAll rest)

end

mutual

/-- The stores that the iterator walks, by address, with what it is bound to. -/
def leaves : Iter σ → List (σ × Snapshot)
  | sorted c => [(c.source, c.cursor.view)]
  | bag c => [(c.source, c.cursor.view)]
  | merge m => m.subs.map fun c => (c.source, c.cursor.view)
  | concat ⟨subs, _, _, _⟩ => leavesAll subs
  | filtered ⟨base, _⟩ => leaves base

/-- The stores that some iterators walk. -/
def leavesAll : List (Iter σ) → List (σ × Snapshot)
  | [] => []
  | it :: rest => leaves it ++ leavesAll rest

end

mutual

/-- The same iterator with other addresses for its stores. -/
def map (f : σ → τ) : Iter σ → Iter τ
  | sorted c => sorted ⟨f c.source, c.comparator, c.cursor⟩
  | bag c => bag ⟨f c.source, c.cursor⟩
  | merge m =>
    let subs := m.subs.map fun c => ⟨f c.source, c.comparator, c.cursor⟩
    merge ⟨subs, m.comparator, m.current, m.forward⟩
  | concat ⟨subs, comparator, kind, current⟩ => concat ⟨mapAll f subs, comparator, kind, current⟩
  | filtered ⟨base, accepts⟩ => filtered ⟨map f base, accepts⟩

/-- The same iterators with other addresses. -/
def mapAll (f : σ → τ) : List (Iter σ) → List (Iter τ)
  | [] => []
  | it :: rest => map f it :: mapAll f rest

end

/-- The order of the elements, where the iterator has one. -/
def comparator? : Iter σ → Option Comparator
  | sorted c => some c.comparator
  | merge m => some m.comparator
  | filtered ⟨base, _⟩ => comparator? base
  | bag _ | concat _ => none

/-- The name of the kind of an iterator. -/
def kind : Iter σ → String
  | sorted _ => "sorted"
  | bag _ => "bag"
  | merge _ => "merge"
  | concat _ => "unordered"
  | filtered _ => "filtered"

/-- How many cursors a merge has. -/
def width? : Iter σ → Option Nat
  | merge m => some m.subs.length
  | _ => none

/-- The iterator behind the condition of a filter. -/
def base? : Iter σ → Option (Iter σ)
  | filtered f => some f.base
  | _ => none

/-! ### Moves -/

/-- More than enough steps to leave what the iterator is bound to. -/
def span (it : Iter σ) : Nat := Snapshot.totalSize (it.leaves.map (·.2)) + it.leaves.length

/-- The walk of iterators up to a depth. -/
def walkTo : Nat → Walk (Iter σ)
  | 0 => .stuck
  | depth + 1 => {
    isValid := fun
      | sorted c => c.isValid
      | bag c => c.isValid
      | merge m => m.isValid
      | concat c => c.isValid
      | filtered f => (walkTo depth).isValid f.base
    element? := fun
      | sorted c => c.element?
      | bag c => c.element?
      | merge m => m.element?
      | concat c => c.element? (walkTo depth)
      | filtered f => (walkTo depth).element? f.base
    step := fun s it =>
      match it with
      | sorted c => sorted (c.step s)
      | bag c => bag (c.step s)
      | merge m => merge (m.step s)
      | concat c => concat (c.step (walkTo depth) s)
      | filtered f => filtered (f.step (walkTo depth) s)
    span := span
  }

/-- Rebind iterators up to a depth. -/
def rebindTo (live : σ → Snapshot) : Nat → Rebind → Iter σ → Iter σ
  | 0, _, it => it
  | depth + 1, r, it =>
    match it with
    | sorted c => sorted (c.rebind live r)
    | bag c => bag (c.rebind live r)
    | merge m => merge (m.rebind live r)
    | concat c => concat (c.rebind (walkTo depth) (rebindTo live depth) r)
    | filtered f => filtered (f.rebind (walkTo depth) (rebindTo live depth) r)

/-- The walk that fits an iterator. -/
def walk (it : Iter σ) : Walk (Iter σ) := walkTo it.depth

/-- Whether the iterator stands at an element. -/
def isValid (it : Iter σ) : Bool := it.walk.isValid it

/-- The element that the iterator stands at, without asking whether it is valid. -/
def element? (it : Iter σ) : Option FeatureStructure := it.walk.element? it

/-- The element that the iterator stands at. -/
def get (it : Iter σ) : Except Error FeatureStructure :=
  match it.isValid, it.element? with
  | true, some fs => .ok fs
  | _, _ => .error .invalidIterator

/-- Move within what the iterator is bound to. -/
def step (s : Step) (it : Iter σ) : Iter σ := it.walk.step s it

/-- Bind to the present contents and move. -/
def rebind (live : σ → Snapshot) (r : Rebind) (it : Iter σ) : Iter σ := rebindTo live it.depth r it

/-- Up to `limit` elements from where the iterator stands, and the iterator behind them. -/
def take (limit : Nat) (it : Iter σ) : List FeatureStructure × Iter σ := it.walk.collect limit it

/-- All elements from where the iterator stands, and the iterator behind them. -/
def rest (it : Iter σ) : List FeatureStructure × Iter σ := it.take it.span

/-- Bind to the present contents and collect all of them. -/
def collect (live : σ → Snapshot) (it : Iter σ) : List FeatureStructure × Iter σ :=
  (it.rebind live .first).rest

/-! ### Building -/

/-- The union of sorted cursors, in order. -/
def ofSorted (subs : List (SortedCursor σ)) : Except Error (Iter σ) := do
  return merge (← Merge.ofCursors subs)

/-- Iterators one after another. -/
def ofList (subs : List (Iter σ)) (comparator : Comparator) (kind : IndexKind) : Iter σ :=
  concat (Concat.ofCursors (walkTo (depthAll subs)) subs comparator kind)

/-- The elements that a condition accepts. -/
def filter (it : Iter σ) (accepts : FeatureStructure → Bool) : Iter σ :=
  filtered (Filtered.ofCursor it.walk it accepts)

/-! ### Against the present contents -/

/-- Whether no store has changed since the iterator was bound to it. -/
def isFresh (live : σ → Snapshot) (it : Iter σ) : Bool :=
  it.leaves.all fun l => (live l.1).sameGeneration l.2

mutual

/-- How many structures the stores hold now. Filters do not tell. -/
def size (live : σ → Snapshot) : Iter σ → Except Error Nat
  | sorted c => .ok (live c.source).size
  | bag c => .ok (live c.source).size
  | merge m => .ok (Snapshot.totalSize (m.subs.map fun c => live c.source))
  | concat ⟨subs, _, _, _⟩ => sizeAll live subs
  | filtered _ => .error (.unsupportedOperation .filteredSize)

/-- How many structures the stores of some iterators hold now. -/
def sizeAll (live : σ → Snapshot) : List (Iter σ) → Except Error Nat
  | [] => .ok 0
  | it :: rest => do
    let n ← size live it
    let m ← sizeAll live rest
    return n + m

end

end Iter

/-! ### Comparing -/

/-- An iterator over sorted data, with its order. -/
structure OrderedIter (σ : Type) where
  iter : Iter σ
  comparator : Comparator
  ordered : iter.comparator? = some comparator

/-- Compare the elements of two iterators over data in the same order. -/
def OrderedIter.compareTo (a b : OrderedIter σ) : Except Error Ordering :=
  let c := a.comparator
  let d := b.comparator
  if !c.ordersLike d then .error (.notComparable (.orders c.debug d.debug))
  else do
    let x ← a.iter.get
    let y ← b.iter.get
    return c.compareFully x y

namespace Iter

/-- The iterator with its order, which it must have. -/
def toOrdered (it : Iter σ) : Except Error (OrderedIter σ) :=
  match h : it.comparator? with
  | some c => .ok ⟨it, c, h⟩
  | none => .error (.notComparable .unordered)

/-- Compare the elements of two iterators, both of which must be over sorted data. -/
def compareTo (a b : Iter σ) : Except Error Ordering := do
  let a ← a.toOrdered
  let b ← b.toOrdered
  a.compareTo b

end Iter
end FeatureIndex
