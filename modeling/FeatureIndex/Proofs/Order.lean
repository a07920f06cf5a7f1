import FeatureIndex.Comparator
import Mathlib.Order.Compare

/-!
# Comparators are total preorders

Every comparison of this library is reflexive, turns around when its arguments do, and is
transitive: on doubles, on values of any ranges, on slots that may be missing, by one key, by a list
of keys, and by keys and id. `Std.TransCmp` says all three at once, so each comparison gets that
instance and the lemmas of `Std` apply to it.

Values and slots compare equal only to themselves (`Std.LawfulEqCmp`), patterns of doubles
included, so structures are key-equal when they coincide in each key. The comparison by keys and id
is `eq` on exactly the key-equal structures of one id. `Comparator.total_preorder` puts this
together.
-/

namespace FeatureIndex

open Std (LawfulEqCmp LawfulEqOrd OrientedCmp OrientedOrd ReflCmp TransCmp TransOrd)

/-! ### Values -/

instance : TransCmp Double.totalCmp where
  eq_swap := OrientedOrd.eq_swap
  isLE_trans := TransOrd.isLE_trans

/-- Every pattern has a place of its own in the total order of doubles. -/
theorem Double.orderKey_injective {a b : UInt64} (h : orderKey a = orderKey b) : a = b := by
  have hsign : ∀ x : UInt64, Decimal.isNegative x = true ↔ 9223372036854775808 ≤ x.toNat := by
    simp [Decimal.isNegative, Decimal.signWeight]
  have ha := a.toNat_lt
  have hb := b.toNat_lt
  apply UInt64.toNat_inj.mp
  -- the sign tells the side of zero on which the place is, and the magnitude tells the rest
  simp only [orderKey, hsign, Decimal.unsigned, Decimal.signWeight] at h
  split at h <;> split at h <;> omega

instance : LawfulEqCmp Double.totalCmp where
  compare_self := ReflCmp.compare_self
  eq_of_compare h := Double.orderKey_injective (LawfulEqOrd.eq_of_compare h)

/-- The absent text counts as `none` does in the order of optional texts. -/
theorem Value.compareText_eq_compare : Value.compareText = compare := by
  funext a b
  cases a <;> cases b <;> rfl

instance : TransCmp Value.compareText :=
  Value.compareText_eq_compare ▸ inferInstanceAs (TransOrd (Option String))

instance : LawfulEqCmp Value.compareText :=
  Value.compareText_eq_compare ▸ inferInstanceAs (LawfulEqOrd (Option String))

namespace Value

/-- Values of two ranges compare as their ranges do. -/
theorem totalCmp_of_range_ne {a b : Value} (h : a.range ≠ b.range) :
    a.totalCmp b = compare a.range.rank b.range.rank := by
  cases a <;> cases b <;> first | rfl | exact absurd rfl h

theorem rank_injective {r s : ValueRange} (h : r.rank = s.rank) : r = s := by
  cases r <;> cases s <;> first | rfl | exact absurd h (by decide)

/-- A value that compares at most another stands in a range at most that one's. -/
theorem rank_le_of_isLE {a b : Value} (h : (a.totalCmp b).isLE) :
    a.range.rank ≤ b.range.rank := by
  by_cases hr : a.range = b.range
  · exact Nat.le_of_eq (congrArg ValueRange.rank hr)
  · rw [totalCmp_of_range_ne hr] at h
    exact Nat.isLE_compare.mp h

theorem totalCmp_swap (a b : Value) : a.totalCmp b = (b.totalCmp a).swap := by
  cases a <;> cases b
  case int.int => exact OrientedOrd.eq_swap
  case float.float => exact (inferInstance : TransCmp Double.totalCmp).eq_swap
  case bool.bool => exact OrientedOrd.eq_swap
  case string.string => exact (inferInstance : TransCmp compareText).eq_swap
  all_goals rfl

/-- Inside one range, the comparison of that range is transitive. -/
theorem totalCmp_isLE_trans_of_range {a b c : Value} (hb : a.range = b.range)
    (hc : a.range = c.range) (hab : (a.totalCmp b).isLE) (hbc : (b.totalCmp c).isLE) :
    (a.totalCmp c).isLE := by
  -- one case is left for each range
  cases a <;> cases b <;> try cases hb
  all_goals cases c <;> try cases hc
  · exact TransOrd.isLE_trans hab hbc
  · exact (inferInstance : TransCmp Double.totalCmp).isLE_trans hab hbc
  · exact TransOrd.isLE_trans hab hbc
  · exact (inferInstance : TransCmp compareText).isLE_trans hab hbc

instance : TransCmp Value.totalCmp where
  eq_swap := totalCmp_swap _ _
  isLE_trans {a b c} hab hbc := by
    have hle := rank_le_of_isLE hab
    have hle' := rank_le_of_isLE hbc
    by_cases hc : a.range = c.range
    · -- the range between two equal ones is that range too
      have hb : a.range = b.range := by
        rw [← hc] at hle'
        exact rank_injective (Nat.le_antisymm hle hle')
      exact totalCmp_isLE_trans_of_range hb hc hab hbc
    · rw [totalCmp_of_range_ne hc]
      exact Nat.isLE_compare.mpr (Nat.le_trans hle hle')

/-- Only a value itself compares equal to it. -/
instance : LawfulEqCmp Value.totalCmp where
  compare_self := ReflCmp.compare_self
  eq_of_compare {a b} h := by
    cases a <;> cases b
    case int.int => exact congrArg int (LawfulEqOrd.eq_of_compare h)
    case float.float =>
        exact congrArg float ((inferInstance : LawfulEqCmp Double.totalCmp).eq_of_compare h)
    case bool.bool => exact congrArg bool (LawfulEqOrd.eq_of_compare h)
    case string.string =>
        exact congrArg string ((inferInstance : LawfulEqCmp compareText).eq_of_compare h)
    -- values of two ranges are never equal
    all_goals cases h

end Value

/-! ### Keys -/

instance : TransCmp Key.compareSlots := by
  -- slots compare as optional values do, a missing one before all others
  let : Ord Value := ⟨Value.totalCmp⟩
  have : TransOrd Value := inferInstanceAs (TransCmp Value.totalCmp)
  have h : Key.compareSlots = compare := by
    funext a b
    cases a <;> cases b <;> rfl
  exact h ▸ inferInstanceAs (TransOrd (Option Value))

instance : LawfulEqCmp Key.compareSlots where
  compare_self := ReflCmp.compare_self
  eq_of_compare {a b} h := by
    cases a <;> cases b
    case none.none => rfl
    case some.some =>
        exact congrArg some ((inferInstance : LawfulEqCmp Value.totalCmp).eq_of_compare h)
    all_goals cases h

/-- A comparison keeps its laws in either direction. -/
instance (d : Direction) (cmp : α → α → Ordering) [inst : TransCmp cmp] :
    TransCmp fun a b => d.apply (cmp a b) :=
  match d with
  | .standard => inferInstanceAs (TransCmp fun a b => cmp a b)
  | .reverse => {
      eq_swap := by
        intro a b
        show (cmp a b).swap = (cmp b a).swap.swap
        rw [inst.eq_swap (a := a) (b := b)]
      isLE_trans := by
        intro a b c hab hbc
        have hba : (cmp b a).isLE := by rw [inst.eq_swap]; exact hab
        have hcb : (cmp c b).isLE := by rw [inst.eq_swap]; exact hbc
        show (cmp a c).swap.isLE
        rw [← inst.eq_swap]
        exact inst.isLE_trans hcb hba }

instance (direction : Direction) (slot : Nat) :
    TransCmp fun a b : FeatureStructure =>
      direction.apply (Key.compareSlots (a.valueAt slot) (b.valueAt slot)) where
  eq_swap := (inferInstance : TransCmp fun x y => direction.apply (Key.compareSlots x y)).eq_swap
  isLE_trans :=
    (inferInstance : TransCmp fun x y => direction.apply (Key.compareSlots x y)).isLE_trans

instance (ts : TypeSystem) (k : Key) : TransCmp fun a b => k.compare ts a b :=
  match k with
  | .feature _ slot direction => inferInstanceAs (TransCmp fun a b : FeatureStructure =>
      direction.apply (Key.compareSlots (a.valueAt slot) (b.valueAt slot)))
  | .typePriority => { eq_swap := OrientedOrd.eq_swap, isLE_trans := TransOrd.isLE_trans }

/-- Two structures coincide in a key when both hold the same value in its slot, or neither holds
any; in the linear order of types, when their types have the same place. -/
def Key.Coincide (ts : TypeSystem) (a b : FeatureStructure) : Key → Prop
  | feature _ slot _ => a.valueAt slot = b.valueAt slot
  | typePriority => ts.priority a.type = ts.priority b.type

theorem Direction.apply_eq_eq {d : Direction} {o : Ordering} : d.apply o = .eq ↔ o = .eq := by
  cases d with
  | standard => rfl
  | reverse => exact Ordering.swap_eq_eq

/-- **Equal by a key are exactly the structures that coincide in it.** -/
theorem Key.compare_eq_eq {ts : TypeSystem} {a b : FeatureStructure} {k : Key} :
    k.compare ts a b = .eq ↔ k.Coincide ts a b := by
  cases k with
  | feature name slot direction =>
      exact Direction.apply_eq_eq.trans
        (inferInstance : LawfulEqCmp compareSlots).compare_eq_iff_eq
  | typePriority => exact Nat.compare_eq_eq

/-! ### Comparators -/

/-- An id is its number. -/
theorem StructureId.ext {a b : StructureId} (h : a.val = b.val) : a = b := by
  obtain ⟨val, pos⟩ := a
  cases h
  rfl

namespace Comparator

instance (ts : TypeSystem) (keys : List Key) : TransCmp fun a b => compareKeys ts a b keys := by
  induction keys with
  | nil => exact { eq_swap := rfl, isLE_trans := fun _ _ => rfl }
  | cons k rest ih =>
      exact inferInstanceAs
        (TransCmp (compareLex (fun a b => k.compare ts a b) fun a b => compareKeys ts a b rest))

instance (c : Comparator) : TransCmp c.compare :=
  inferInstanceAs (TransCmp fun a b => compareKeys c.system a b c.keys)

/-- Key-equal structures are equal by each key. -/
theorem compareKeys_eq_eq {ts : TypeSystem} {keys : List Key} {a b : FeatureStructure} :
    compareKeys ts a b keys = .eq ↔ ∀ k ∈ keys, k.compare ts a b = .eq := by
  induction keys with
  | nil => simp [compareKeys]
  | cons k rest ih => rw [compareKeys, Ordering.then_eq_eq, ih, List.forall_mem_cons]

/-- The order of structures by id alone. -/
def compareIds (a b : FeatureStructure) : Ordering := a.id.compare b.id

instance : TransCmp compareIds where
  eq_swap := OrientedOrd.eq_swap
  isLE_trans := TransOrd.isLE_trans

instance (c : Comparator) : TransCmp c.compareFully :=
  inferInstanceAs (TransCmp (compareLex c.compare compareIds))

theorem compareIds_eq_eq {a b : FeatureStructure} : compareIds a b = .eq ↔ a.id.val = b.id.val :=
  Nat.compare_eq_eq

theorem compareIds_eq_lt {a b : FeatureStructure} : compareIds a b = .lt ↔ a.id.val < b.id.val :=
  Nat.compare_eq_lt

theorem compareIds_beq_lt (a b : FeatureStructure) :
    (compareIds a b == .lt) = decide (a.id.val < b.id.val) := by
  rw [Bool.eq_iff_iff, beq_iff_eq, decide_eq_true_eq, compareIds_eq_lt]

/-- **By keys and id, exactly the key-equal structures of one id are equal.** -/
theorem compareFully_eq_eq {c : Comparator} {a b : FeatureStructure} :
    c.compareFully a b = .eq ↔ c.compare a b = .eq ∧ a.id.val = b.id.val := by
  rw [compareFully, Ordering.then_eq_eq, ← compareIds_eq_eq]
  rfl

/-- Without keys only the ids count. -/
theorem compareFully_of_keys_eq_nil {c : Comparator} (h : c.keys = []) :
    c.compareFully = compareIds := by
  funext a b
  simp only [compareFully, compare, h, compareKeys, Ordering.eq_then]
  rfl

/-- What comes before by keys and id is not after in the order of keys. -/
theorem compare_isLE_of_compareFully {c : Comparator} {a b : FeatureStructure}
    (h : (c.compareFully a b).isLE) : (c.compare a b).isLE :=
  Ordering.isLE_left_of_isLE_then h

/-- Key-equal structures coincide in each key. -/
theorem compare_eq_eq {c : Comparator} {a b : FeatureStructure} :
    c.compare a b = .eq ↔ ∀ k ∈ c.keys, k.Coincide c.system a b := by
  simp only [compare, compareKeys_eq_eq, Key.compare_eq_eq]

/-- Two comparators with the same keys over the same type system. -/
def Agrees (c d : Comparator) : Prop := c.system = d.system ∧ c.keys = d.keys

theorem Agrees.compare {c d : Comparator} (h : c.Agrees d) : c.compare = d.compare := by
  funext a b
  rw [Comparator.compare, Comparator.compare, h.1, h.2]

theorem Agrees.compareFully {c d : Comparator} (h : c.Agrees d) :
    c.compareFully = d.compareFully := by
  funext a b
  rw [Comparator.compareFully, Comparator.compareFully, h.compare]

/-! ### Total preorders -/

/-- An order in which all structures have their places, and several may share one: a structure
shares its own, turning the arguments around turns the order around, the order goes on from one
structure to the next, and structures that share a place compare alike with all others. -/
structure TotalPreorder (cmp : FeatureStructure → FeatureStructure → Ordering) : Prop where
  refl : ∀ a, cmp a a = .eq
  swap : ∀ a b, cmp b a = (cmp a b).swap
  trans : ∀ a b c, (cmp a b).isLE → (cmp b c).isLE → (cmp a c).isLE
  congr : ∀ a a' b b', cmp a a' = .eq → cmp b b' = .eq → cmp a b = cmp a' b'

theorem TotalPreorder.of_transCmp (cmp : FeatureStructure → FeatureStructure → Ordering)
    [TransCmp cmp] : TotalPreorder cmp where
  refl _ := ReflCmp.compare_self
  swap _ _ := OrientedCmp.eq_swap
  trans _ _ _ := TransCmp.isLE_trans
  congr _ _ _ _ ha hb := (TransCmp.congr_left ha).trans (TransCmp.congr_right hb)

/-- **Comparators put all structures into a total preorder**, whatever their keys are and whatever
types and type systems the structures have. Equal by keys are those that coincide in each key, to
the last bit of a double, and equal by keys and id are the key-equal ones of one id. -/
theorem total_preorder (c : Comparator) :
    TotalPreorder c.compare ∧ TotalPreorder c.compareFully ∧
    (∀ a b, c.compare a b = .eq ↔ ∀ k ∈ c.keys, k.Coincide c.system a b) ∧
    (∀ a b, c.compareFully a b = .eq ↔ c.compare a b = .eq ∧ a.id = b.id) := by
  refine ⟨.of_transCmp _, .of_transCmp _, fun a b => compare_eq_eq, fun a b => ?_⟩
  rw [compareFully_eq_eq]
  exact and_congr_right fun _ => ⟨StructureId.ext, congrArg StructureId.val⟩

end Comparator
end FeatureIndex
