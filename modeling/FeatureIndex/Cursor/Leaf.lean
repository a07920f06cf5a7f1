import FeatureIndex.Comparator
import FeatureIndex.Cursor.Basic

/-!
# Cursors over one store

A leaf cursor knows where its store is found, as an address of any type `σ`, and walks the snapshot
that it is bound to. Moves that rebind are told by `live` what the store at an address holds now.

`SortedCursor` walks an ordered set and finds places by its comparator; `BagCursor` walks a bag and
finds places by id.
-/

namespace FeatureIndex

/-- A cursor over an ordered set. -/
structure SortedCursor (σ : Type) where
  source : σ
  comparator : Comparator
  cursor : Cursor

/-- A cursor over a bag. -/
structure BagCursor (σ : Type) where
  source : σ
  cursor : Cursor

namespace SortedCursor

/-- A cursor at the first element of what a store holds now. -/
def start (source : σ) (comparator : Comparator) (now : Snapshot) : SortedCursor σ :=
  ⟨source, comparator, .start now⟩

/-- Whether the cursor stands at an element. -/
def isValid (c : SortedCursor σ) : Bool := c.cursor.isValid

/-- The element that the cursor stands at. -/
def element? (c : SortedCursor σ) : Option FeatureStructure := c.cursor.element?

/-- Move over the snapshot that the cursor is bound to. -/
def step (s : Step) (c : SortedCursor σ) : SortedCursor σ := { c with cursor := c.cursor.step s }

/-- Stand at the first element after `fs`, by key and id. -/
def placeAfter (fs : FeatureStructure) (c : SortedCursor σ) : SortedCursor σ :=
  let i := c.cursor.view.splitPoint fun e => c.comparator.compareFully e fs != .gt
  { c with cursor := c.cursor.seek i }

/-- Stand at the last element before `fs`, by key and id. -/
def placeBefore (fs : FeatureStructure) (c : SortedCursor σ) : SortedCursor σ :=
  let i := c.cursor.view.splitPoint fun e => c.comparator.compareFully e fs == .lt
  { c with cursor := c.cursor.seekBack i }

/-- A target is met at the first element whose key is not less. -/
def rebind (live : σ → Snapshot) (r : Rebind) (c : SortedCursor σ) : SortedCursor σ :=
  let bound : Cursor := { c.cursor with view := live c.source }
  let moved := match r with
    | .first => Cursor.step .first bound
    | .last => Cursor.step .last bound
    | .toward target =>
      bound.seek (bound.view.splitPoint fun e => c.comparator.compare e target == .lt)
  { c with cursor := moved }

end SortedCursor

namespace BagCursor

/-- A cursor at the first element of what a store holds now. -/
def start (source : σ) (now : Snapshot) : BagCursor σ := ⟨source, .start now⟩

/-- Whether the cursor stands at an element. -/
def isValid (c : BagCursor σ) : Bool := c.cursor.isValid

/-- The element that the cursor stands at. -/
def element? (c : BagCursor σ) : Option FeatureStructure := c.cursor.element?

/-- Move over the snapshot that the cursor is bound to. -/
def step (s : Step) (c : BagCursor σ) : BagCursor σ := { c with cursor := c.cursor.step s }

/-- A target is met at the first element whose id is not less. -/
def rebind (live : σ → Snapshot) (r : Rebind) (c : BagCursor σ) : BagCursor σ :=
  let bound : Cursor := { c.cursor with view := live c.source }
  let moved := match r with
    | .first => Cursor.step .first bound
    | .last => Cursor.step .last bound
    | .toward target => bound.seek (bound.view.splitPoint fun e => e.id.val < target.id.val)
  { c with cursor := moved }

end BagCursor
end FeatureIndex
