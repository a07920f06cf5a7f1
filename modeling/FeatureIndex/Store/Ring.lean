/-!
# Places in a circular array

A `Ring` says where the elements of a store lie in its array: how many places the array has, and
which one holds the first element. The elements run on from there and may wrap around the end, which
cuts them in two parts at the `seam`. The elements themselves are kept elsewhere as a plain list;
what a store shows of its ring is the seam alone, through a search on elements that are not in
order.

Inserting and removing move the shorter side. An array grows to twice its size when full, and a
large one is halved when less than a quarter of it is in use.
-/

namespace FeatureIndex

/-- The first place in use, and the number of places. -/
structure Ring where
  head : Nat
  capacity : Nat
  deriving DecidableEq

namespace Ring

/-- An array with that many places, none in use. -/
def withCapacity (n : Nat) : Ring := ⟨0, n⟩

/-- How many of `size` elements lie before the end of the array. -/
def seam (r : Ring) (size : Nat) : Nat := min size (r.capacity - r.head)

/-- Whether `size` elements lie in one part. -/
def contiguous (r : Ring) (size : Nat) : Bool := r.head + size ≤ r.capacity

/-- Fewest places of an array that grows. -/
def leastGrown : Nat := 4

/-- Grow a full array. When the elements wrap, the part at the front follows the other one if it is
the shorter and has room there; otherwise the part at the end moves to the new end. -/
def grow (r : Ring) (size : Nat) : Ring :=
  let capacity := max leastGrown (max (2 * r.capacity) (size + 1))
  if r.contiguous size then ⟨r.head, capacity⟩
  else
    let front := r.capacity - r.head
    let wrapped := size - front
    if wrapped < front && wrapped ≤ capacity - r.capacity then ⟨r.head, capacity⟩
    else ⟨capacity - front, capacity⟩

/-- Make room for one more than `size` elements. -/
def reserve (r : Ring) (size : Nat) : Ring :=
  if size + 1 ≤ r.capacity then r else r.grow size

/-- The places after an element went in as number `i` of now `size + 1`. -/
def insert (r : Ring) (size i : Nat) : Ring :=
  let r := r.reserve size
  if size - i < i then r
  else ⟨if r.head = 0 then r.capacity - 1 else r.head - 1, r.capacity⟩

/-- An array with fewer places for its elements. They move only where their places go away. -/
def shrinkTo (r : Ring) (size least : Nat) : Ring :=
  let target := max least size
  if r.capacity ≤ target then r
  else
    let past := r.head + size
    let cut := target < past && past ≤ r.capacity
    if size = 0 then ⟨0, target⟩
    else if cut then ⟨if target ≤ r.head then 0 else r.head, target⟩
    else if r.contiguous size then ⟨r.head, target⟩
    else ⟨target - (r.capacity - r.head), target⟩

/-- An array of at most so many places is not made smaller. -/
def leastShrunk : Nat := 64

/-- The places after element `i` of `size` went out. -/
def erase (r : Ring) (size i : Nat) : Ring :=
  let head := if size - i - 1 < i then r.head else if r.head + 1 < r.capacity then r.head + 1 else 0
  let r : Ring := ⟨head, r.capacity⟩
  if leastShrunk < r.capacity && size - 1 < r.capacity / 4 then
    r.shrinkTo (size - 1) (r.capacity / 2)
  else r

/-- The array that holds a copy of `size` elements. -/
def copied (size : Nat) : Ring := ⟨0, size⟩

/-- The array that a list of `size` elements was collected into. -/
def collected (size : Nat) : Ring := ⟨0, if size = 0 then 0 else max leastGrown size⟩

end Ring
end FeatureIndex
