import FeatureIndex.Cursor.Basic

/-!
# Filtered cursors

A filtered cursor walks those elements of another cursor that a condition accepts. After every move
it goes on, in the direction of the move, past the elements that the condition rejects.
-/

namespace FeatureIndex

/-- A cursor in state `S` behind a condition. -/
structure Filtered (S : Type) where
  base : S
  accepts : FeatureStructure → Bool

namespace Filtered

/-- Whether a state stands at an element that is rejected. -/
def rejected (w : Walk S) (accepts : FeatureStructure → Bool) (s : S) : Bool :=
  w.isValid s && !(w.element? s).any accepts

/-- Go on past rejected elements, by at most that many steps. -/
def skip (w : Walk S) (accepts : FeatureStructure → Bool) (onward : Step) : Nat → S → S
  | 0, s => s
  | budget + 1, s =>
    if rejected w accepts s then skip w accepts onward budget (w.step onward s) else s

/-- Go on past rejected elements. -/
def settle (w : Walk S) (onward : Step) (f : Filtered S) : Filtered S :=
  { f with base := skip w f.accepts onward (w.span f.base) f.base }

/-- Put a cursor behind a condition, at the first accepted element from where it stands. -/
def ofCursor (w : Walk S) (base : S) (accepts : FeatureStructure → Bool) : Filtered S :=
  settle w .next ⟨base, accepts⟩

/-- Move, and go on past rejected elements. -/
def step (w : Walk S) (s : Step) (f : Filtered S) : Filtered S :=
  settle w s.onward { f with base := w.step s f.base }

/-- Rebind, given how the cursor behind the condition rebinds. -/
def rebind (w : Walk S) (rebindBase : Rebind → S → S) (r : Rebind) (f : Filtered S) :
    Filtered S :=
  settle w r.onward { f with base := rebindBase r f.base }

end Filtered
end FeatureIndex
