import FeatureIndex.Cursor.Leaf

/-!
# Merging sorted cursors

A merge walks the union of several sorted cursors in the order of key and id. Going forward it
stands at the least of their elements, and every other cursor stands at its first element after that
one; going backward it stands at the greatest, and every other cursor stands at its last element
before it. When the direction turns, the other cursors are placed anew around the current element.
-/

namespace FeatureIndex

/-- A merge of sorted cursors; `current` is the position of the one that gives the current
element. -/
structure Merge (σ : Type) where
  subs : List (SortedCursor σ)
  comparator : Comparator
  current : Option Nat
  forward : Bool

namespace Merge

/-- The best element so far, with the position of its cursor; one that compares as wanted with the
best so far takes its place. -/
def better (c : Comparator) (want : Ordering) (best : Option (Nat × FeatureStructure)) (i : Nat)
    (candidate : Option FeatureStructure) : Option (Nat × FeatureStructure) :=
  match candidate, best with
  | none, best => best
  | some e, none => some (i, e)
  | some e, some (b, at?) => if c.compareFully e at? = want then some (i, e) else some (b, at?)

/-- The position of the cursor with the best element. -/
def select (c : Comparator) (want : Ordering) (subs : List (SortedCursor σ)) : Option Nat :=
  (subs.zipIdx.foldl (fun best p => better c want best p.2 p.1.element?) none).map (·.1)

/-- Stand at the least element, going forward. -/
def selectLeast (m : Merge σ) : Merge σ :=
  { m with current := select m.comparator .lt m.subs, forward := true }

/-- Stand at the greatest element, going backward. -/
def selectGreatest (m : Merge σ) : Merge σ :=
  { m with current := select m.comparator .gt m.subs, forward := false }

/-- Merge sorted cursors, which must order alike, at the least of their current elements. -/
def ofCursors (subs : List (SortedCursor σ)) : Except Error (Merge σ) :=
  match subs with
  | [] => .error (.unsupportedOperation .emptyMerge)
  | first :: _ =>
    match subs.find? fun s => !s.comparator.ordersLike first.comparator with
    | some odd => .error (.notComparable (.orders first.comparator.debug odd.comparator.debug))
    | none => .ok (selectLeast ⟨subs, first.comparator, none, true⟩)

/-- Whether the merge stands at an element. -/
def isValid (m : Merge σ) : Bool := m.current.isSome

/-- The element that the current cursor stands at. -/
def element? (m : Merge σ) : Option FeatureStructure :=
  m.current.bind fun i => m.subs[i]?.bind SortedCursor.element?

/-- Place every cursor but number `i` by the element of that one. -/
def replaceOthers (m : Merge σ) (i : Nat)
    (seek : FeatureStructure → SortedCursor σ → SortedCursor σ) : List (SortedCursor σ) :=
  match m.element? with
  | some here => m.subs.mapIdx fun j s => if j = i then s else seek here s
  | none => m.subs

/-- Move. On a change of direction the other cursors are first placed around the current element. -/
def step : Step → Merge σ → Merge σ
  | .first, m => selectLeast { m with subs := m.subs.map (SortedCursor.step .first) }
  | .last, m => selectGreatest { m with subs := m.subs.map (SortedCursor.step .last) }
  | .next, m =>
    match m.current with
    | none => m
    | some i =>
      let subs := if m.forward then m.subs else m.replaceOthers i SortedCursor.placeAfter
      selectLeast { m with subs := subs.modify i (SortedCursor.step .next) }
  | .previous, m =>
    match m.current with
    | none => m
    | some i =>
      let subs := if m.forward then m.replaceOthers i SortedCursor.placeBefore else m.subs
      selectGreatest { m with subs := subs.modify i (SortedCursor.step .previous) }

/-- Rebind every cursor, and stand at the greatest element for the last one, else at the least. -/
def rebind (live : σ → Snapshot) (r : Rebind) (m : Merge σ) : Merge σ :=
  let m := { m with subs := m.subs.map (SortedCursor.rebind live r) }
  match r with
  | .last => m.selectGreatest
  | .first | .toward _ => m.selectLeast

end Merge
end FeatureIndex
