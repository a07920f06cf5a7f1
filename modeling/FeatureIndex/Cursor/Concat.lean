import FeatureIndex.Choice
import FeatureIndex.Comparator
import FeatureIndex.Cursor.Basic

/-!
# Concatenating cursors

A concatenation walks several cursors of any kind one after another. It stands where its current
cursor stands; when that one runs out, it goes on with the nearest one that has elements, entered at
the end that comes first in the direction of the walk.
-/

namespace FeatureIndex

/-- A concatenation of cursors in state `S`. `comparator` and `kind` say when an element matches a
target. -/
structure Concat (S : Type) where
  subs : List S
  comparator : Comparator
  kind : IndexKind
  current : Option Nat

namespace Concat

/-- Enter cursors at their first element, from the front, up to the first one that has elements; its
position comes with them. -/
def enterForward (w : Walk S) : List S → List S × Option Nat
  | [] => ([], none)
  | s :: rest =>
    let s := w.step .first s
    if w.isValid s then (s :: rest, some 0)
    else
      let (rest, found) := enterForward w rest
      (s :: rest, found.map (· + 1))

/-- Enter cursors at their last element, from the front of a list in reverse. -/
def enterBackward (w : Walk S) : List S → List S × Option Nat
  | [] => ([], none)
  | s :: rest =>
    let s := w.step .last s
    if w.isValid s then (s :: rest, some 0)
    else
      let (rest, found) := enterBackward w rest
      (s :: rest, found.map (· + 1))

/-- Stand at the first element of the cursors from number `i` on. -/
def firstFrom (w : Walk S) (i : Nat) (c : Concat S) : Concat S :=
  let (entered, found) := enterForward w (c.subs.drop i)
  { c with subs := c.subs.take i ++ entered, current := found.map (i + ·) }

/-- Stand at the last element of the cursors before number `i`. -/
def lastBefore (w : Walk S) (i : Nat) (c : Concat S) : Concat S :=
  let (entered, found) := enterBackward w (c.subs.take i).reverse
  { c with
    subs := entered.reverse ++ c.subs.drop i
    current := found.map (entered.length - 1 - ·) }

/-- Concatenate cursors, standing at their first element. -/
def ofCursors (w : Walk S) (subs : List S) (comparator : Comparator) (kind : IndexKind) :
    Concat S :=
  firstFrom w 0 ⟨subs, comparator, kind, none⟩

/-- Whether the concatenation stands at an element. -/
def isValid (c : Concat S) : Bool := c.current.isSome

/-- The element that the current cursor stands at. -/
def element? (w : Walk S) (c : Concat S) : Option FeatureStructure :=
  c.current.bind fun i => c.subs[i]?.bind w.element?

/-- Whether cursor number `i` stands at an element. -/
def subValid (w : Walk S) (i : Nat) (c : Concat S) : Bool := c.subs[i]?.any w.isValid

/-- Move the current cursor, and on to the next one with elements where it leaves its own. -/
def step (w : Walk S) : Step → Concat S → Concat S
  | .first, c => c.firstFrom w 0
  | .last, c => c.lastBefore w c.subs.length
  | .next, c =>
    match c.current with
    | none => c
    | some i =>
      let c := { c with subs := c.subs.modify i (w.step .next) }
      if c.subValid w i then c else c.firstFrom w (i + 1)
  | .previous, c =>
    match c.current with
    | none => c
    | some i =>
      let c := { c with subs := c.subs.modify i (w.step .previous) }
      if c.subValid w i then c else c.lastBefore w i

/-- Whether an element matches a target: by id in a bag, by key otherwise. -/
def isMatch (c : Concat S) (target fs : FeatureStructure) : Bool :=
  match c.kind with
  | .bag => fs.id.val == target.id.val
  | .set | .sorted => c.comparator.compare fs target == .eq

/-- Rebind cursors to a target up to the first one that then stands at a match. -/
def findMatch (w : Walk S) (rebind : S → S) (isMatch : FeatureStructure → Bool) :
    List S → List S × Option Nat
  | [] => ([], none)
  | s :: rest =>
    let s := rebind s
    if w.isValid s && (w.element? s).any isMatch then (s :: rest, some 0)
    else
      let (rest, found) := findMatch w rebind isMatch rest
      (s :: rest, found.map (· + 1))

/-- Rebind, given how a cursor rebinds. A target is met only where an element matches; the cursors
behind that one stay bound as they were. -/
def rebind (w : Walk S) (rebindSub : Rebind → S → S) (r : Rebind) (c : Concat S) : Concat S :=
  match r with
  | .first => firstFrom w 0 { c with subs := c.subs.map (rebindSub .first) }
  | .last => lastBefore w c.subs.length { c with subs := c.subs.map (rebindSub .last) }
  | .toward target =>
    let (subs, found) := findMatch w (rebindSub (.toward target)) (c.isMatch target) c.subs
    { c with subs, current := found }

end Concat
end FeatureIndex
