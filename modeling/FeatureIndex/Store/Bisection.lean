/-!
# Bisection

`splitPoint` finds, by halving, how many elements at the front of a sequence meet a condition that
holds up to some point and fails from there on. The sequence may lie in two parts, as a circular
array does; the first element of the second part then decides which part to halve.

When the condition does not split the sequence at one point, the answer is the one to which the
halving happens to lead; it depends on `seam`, the length of the first part.
-/

namespace FeatureIndex.Bisection

/-- Narrow a stretch of `size` places from `base` on: keep the half that starts in the middle when
the condition holds there, and the first half otherwise. The result is the last place that can still
hold. -/
def narrow (holds : Nat → Bool) : Nat → Nat → Nat → Nat
  | 0, _, base => base
  | fuel + 1, size, base =>
    if size ≤ 1 then base
    else
      let half := size / 2
      narrow holds fuel (size - half) (if holds (base + half) then base + half else base)

/-- The place in a stretch of `size` places from `start` on where the condition stops to hold. -/
def bisect (holds : Nat → Bool) (start size : Nat) : Nat :=
  if size = 0 then start
  else
    let last := narrow holds size size start
    if holds last then last + 1 else last

/-- The number of elements before the place where the condition stops to hold. -/
def splitPoint (items : List α) (seam : Nat) (p : α → Bool) : Nat :=
  let places := items.toArray
  let holds := fun i => (places[i]?).any p
  if holds seam then bisect holds seam (places.size - seam)
  else bisect holds 0 (min seam places.size)

end FeatureIndex.Bisection
