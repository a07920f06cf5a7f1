import FeatureIndex.Store.Snapshot

/-!
# Cursors

A cursor walks a list: it stands at an element, or nowhere. Stepping past either end leaves it
nowhere, and from there a step leads nowhere too. A `Cursor` walks one snapshot; the other cursors
of this library are made of such ones, and a `Walk` is what they have in common.

Two kinds of moves are told apart. A `Step` walks what the cursor is bound to. A `Rebind` first
binds the cursor to the present contents of its source.
-/

namespace FeatureIndex

/-- A move within what a cursor is bound to. -/
inductive Step where
  | first
  | last
  | next
  | previous
  deriving DecidableEq

/-- The step that goes on in the direction of a step: from the first element on, or from the last
one back. -/
def Step.onward : Step → Step
  | first | next => next
  | last | previous => previous

/-- A move that binds to the present contents: to the first element, to the last one, or to the
place of a structure. -/
inductive Rebind where
  | first
  | last
  | toward (target : FeatureStructure)

/-- The step that goes on from where a rebinding lands. -/
def Rebind.onward : Rebind → Step
  | first | toward _ => .next
  | last => .previous

/-- What can be asked of the state of a cursor. `span` bounds how many steps in one direction it
takes to leave the elements. -/
structure Walk (S : Type) where
  isValid : S → Bool
  element? : S → Option FeatureStructure
  step : Step → S → S
  span : S → Nat

namespace Walk

/-- The walk that stands nowhere and does not move. -/
def stuck : Walk S where
  isValid := fun _ => false
  element? := fun _ => none
  step := fun _ s => s
  span := fun _ => 0

/-- Collect up to `limit` elements, going on after each. -/
def collect (w : Walk S) : Nat → S → List FeatureStructure × S
  | 0, s => ([], s)
  | limit + 1, s =>
    match w.isValid s, w.element? s with
    | true, some fs =>
      let (rest, s) := collect w limit (w.step .next s)
      (fs :: rest, s)
    | _, _ => ([], s)

end Walk

/-- A cursor over one snapshot. -/
structure Cursor where
  view : Snapshot
  position : Option Nat

namespace Cursor

/-- Stand at position `i`, or nowhere when there is no such position. -/
def seek (c : Cursor) (i : Nat) : Cursor :=
  { c with position := if i < c.view.size then some i else none }

/-- Stand just before position `i`. -/
def seekBack (c : Cursor) (i : Nat) : Cursor :=
  { c with position := if i = 0 then none else some (i - 1) }

/-- Move over the elements. A step past either end leads nowhere, and from there only `first` and
`last` lead back. -/
def step : Step → Cursor → Cursor
  | .first, c => c.seek 0
  | .last, c => c.seekBack c.view.size
  | .next, c =>
    match c.position with
    | some p => c.seek (p + 1)
    | none => c
  | .previous, c =>
    match c.position with
    | some p => c.seekBack p
    | none => c

/-- A cursor at the first element of a snapshot. -/
def start (view : Snapshot) : Cursor := step .first ⟨view, none⟩

/-- The element that the cursor stands at. -/
def element? (c : Cursor) : Option FeatureStructure := c.position.bind c.view.get?

/-- Whether the cursor stands at an element. -/
def isValid (c : Cursor) : Bool := c.element?.isSome

end Cursor
end FeatureIndex
