import FeatureIndex.Cursor.Merge
import FeatureIndex.Proofs.ListCursor
import FeatureIndex.Proofs.Order
import Mathlib.Algebra.Ring.Nat

/-!
# Merges follow the sorted union

A merge keeps one cursor for each of its lists and a direction, and stands where one list cursor
over the `union` of the lists would: sorted by key and id, which has to tell all their elements
apart (`Merge.Sound`).

The invariant is that all cursors are cut at the current element. Going forward, each of them stands
at the first of its elements that is not before the current one, and going backward at the last one
that is not after it (`Merge.Around`). So all cursors stand at one cut of their lists, the selection
finds the place of the same cut in the union (`Merge.stands_selected`), and every move of a merge
only brings its cursors to another cut:

* `first` and `last` to the cuts that nothing and that everything meets;
* `next` and `previous` to the cut right behind and right before the current element;
* a move to a target to the cut at its key.
-/

namespace FeatureIndex

open ListCursor (after before cut edge)
open Std (OrientedCmp TransCmp)

/-! ### The union of ascending lists -/

section Union

variable {cmp : FeatureStructure → FeatureStructure → Ordering}
  {ls : List (List FeatureStructure)} {below : FeatureStructure → Bool} {x : FeatureStructure}

/-- No two of the lists have elements that compare equal. -/
def Separate (cmp : FeatureStructure → FeatureStructure → Ordering)
    (ls : List (List FeatureStructure)) : Prop :=
  ls.Pairwise fun l m => ∀ a ∈ l, ∀ b ∈ m, cmp a b ≠ .eq

/-- The elements of some lists, sorted. -/
def union (cmp : FeatureStructure → FeatureStructure → Ordering)
    (ls : List (List FeatureStructure)) : List FeatureStructure :=
  ls.flatten.mergeSort fun a b => (cmp a b).isLE

theorem mem_union {a : FeatureStructure} : a ∈ union cmp ls ↔ ∃ l ∈ ls, a ∈ l := by
  rw [union, List.mem_mergeSort, List.mem_flatten]

theorem length_union : (union cmp ls).length = (ls.map List.length).sum := by
  rw [union, List.length_mergeSort, List.length_flatten]

/-- The union of separate ascending lists ascends strictly. -/
theorem ascending_union [TransCmp cmp] (hasc : ∀ l ∈ ls, Ascending cmp l)
    (hsep : Separate cmp ls) : Ascending cmp (union cmp ls) := by
  have hle : (union cmp ls).Pairwise fun a b => (cmp a b).isLE = true :=
    List.pairwise_mergeSort (fun _ _ _ => TransCmp.isLE_trans)
      (fun a b => by
        have hswap : cmp b a = (cmp a b).swap := OrientedCmp.eq_swap
        rw [hswap]
        cases cmp a b <;> rfl) _
  -- no two elements are equal, in one list or in two, and sorting does not change that
  have hne : ls.flatten.Pairwise fun a b => cmp a b ≠ .eq :=
    List.pairwise_flatten.mpr
      ⟨fun l hl => (hasc l hl).imp fun hab => by rw [hab]; exact nofun, hsep⟩
  have hne' : (union cmp ls).Pairwise fun a b => cmp a b ≠ .eq :=
    ((List.mergeSort_perm ..).pairwise_iff fun hab hba => hab (OrientedCmp.eq_symm hba)).mpr hne
  refine hle.imp₂ (fun a b hab hne => ?_) hne'
  cases h : cmp a b <;> simp_all

/-- One ascending list is sorted already. -/
theorem union_singleton {l : List FeatureStructure} (h : Ascending cmp l) : union cmp [l] = l := by
  rw [union, List.flatten_singleton]
  exact List.mergeSort_of_pairwise (h.imp fun hab => by rw [hab]; rfl)

/-- Where the lists stand at a cut, the union stands at the least of their elements. -/
theorem element?_after_union [TransCmp cmp] (hasc : ∀ l ∈ ls, Ascending cmp l)
    (hsep : Separate cmp ls) (hbelow : Lower cmp below) {l : List FeatureStructure} (hl : l ∈ ls)
    (hx : (after l below).element? = some x)
    (hleast : ∀ m ∈ ls, ∀ y, (after m below).element? = some y → cmp y x ≠ .lt) :
    (after (union cmp ls) below).element? = some x := by
  have hL := ascending_union hasc hsep
  rw [ListCursor.element?_after] at hx ⊢
  refine hL.getElem?_countP (hbelow.cuts hL) (mem_union.mpr ⟨l, hl, List.mem_of_getElem? hx⟩) ?_ ?_
  · -- `x` fails the condition, since its list stands at it
    obtain ⟨hi, rfl⟩ := List.getElem?_eq_some_iff.mp hx
    rw [Bool.eq_false_iff, ne_eq, getElem_iff_lt_countP (hbelow.cuts (hasc l hl)) hi]
    exact Nat.lt_irrefl _
  · intro y hy hfail hlt
    obtain ⟨m, hm, hym⟩ := mem_union.mp hy
    obtain ⟨j, hj, rfl⟩ := List.getElem_of_mem hym
    rw [Bool.eq_false_iff, ne_eq, getElem_iff_lt_countP (hbelow.cuts (hasc m hm)) hj] at hfail
    have hk : m.countP below < m.length := by omega
    -- the list stands at an element that is not after `y`
    have hky : (cmp m[m.countP below] m[j]).isLE := by
      rw [(hasc m hm).compare_getElem hk hj, Nat.isLE_compare]
      omega
    exact hleast m hm _ ((ListCursor.element?_after ..).trans (List.getElem?_eq_getElem hk))
      (TransCmp.lt_of_isLE_of_lt hky hlt)

/-- Where the lists stand before a cut, the union stands at the greatest of their elements. -/
theorem element?_before_union [TransCmp cmp] (hasc : ∀ l ∈ ls, Ascending cmp l)
    (hsep : Separate cmp ls) (hbelow : Lower cmp below) {l : List FeatureStructure} (hl : l ∈ ls)
    (hx : (before l below).element? = some x)
    (hgreatest : ∀ m ∈ ls, ∀ y, (before m below).element? = some y → cmp y x ≠ .gt) :
    (before (union cmp ls) below).element? = some x := by
  have hL := ascending_union hasc hsep
  rw [ListCursor.element?_before] at hx
  split at hx
  · cases hx
  next hpos =>
    have hxL : x ∈ union cmp ls := mem_union.mpr ⟨l, hl, List.mem_of_getElem? hx⟩
    have hpx : below x = true := by
      obtain ⟨hi, rfl⟩ := List.getElem?_eq_some_iff.mp hx
      rw [getElem_iff_lt_countP (hbelow.cuts (hasc l hl)) hi]
      omega
    have hmost : ∀ y ∈ union cmp ls, below y = true → cmp y x ≠ .gt := by
      intro y hy hbelowy hgt
      obtain ⟨m, hm, hym⟩ := mem_union.mp hy
      obtain ⟨j, hj, rfl⟩ := List.getElem_of_mem hym
      have hlt := (getElem_iff_lt_countP (hbelow.cuts (hasc m hm)) hj).mp hbelowy
      have hle : m.countP below ≤ m.length := List.countP_le_length
      have hk : m.countP below - 1 < m.length := by omega
      -- the list stands at an element that is not before `y`
      have hky : (cmp m[j] m[m.countP below - 1]).isLE := by
        rw [(hasc m hm).compare_getElem hj hk, Nat.isLE_compare]
        omega
      refine hgreatest m hm m[m.countP below - 1] ?_ ?_
      · rw [ListCursor.element?_before, if_neg (by omega)]
        exact List.getElem?_eq_getElem hk
      · exact OrientedCmp.gt_of_lt (TransCmp.lt_of_lt_of_isLE (OrientedCmp.lt_of_gt hgt) hky)
    obtain ⟨hpos', hget⟩ := hL.getElem?_countP_pred (hbelow.cuts hL) hxL hpx hmost
    rw [ListCursor.element?_before, if_neg (by omega)]
    exact hget

theorem element?_after_union_eq_none [TransCmp cmp] (hasc : ∀ l ∈ ls, Ascending cmp l)
    (hsep : Separate cmp ls) (hbelow : Lower cmp below)
    (hnone : ∀ l ∈ ls, (after l below).element? = none) :
    (after (union cmp ls) below).element? = none := by
  have hL := ascending_union hasc hsep
  rw [ListCursor.element?_after, List.getElem?_eq_none_iff]
  refine Nat.le_of_eq (List.countP_eq_length.mpr fun e he => ?_).symm
  obtain ⟨l, hl, hel⟩ := mem_union.mp he
  obtain ⟨j, hj, rfl⟩ := List.getElem_of_mem hel
  have hl' := hnone l hl
  rw [ListCursor.element?_after, List.getElem?_eq_none_iff] at hl'
  exact (getElem_iff_lt_countP (hbelow.cuts (hasc l hl)) hj).mpr (by omega)

theorem element?_before_union_eq_none
    (hnone : ∀ l ∈ ls, (before l below).element? = none) :
    (before (union cmp ls) below).element? = none := by
  have hzero : (union cmp ls).countP below = 0 := by
    rw [List.countP_eq_zero]
    intro e he hbelowe
    obtain ⟨l, hl, hel⟩ := mem_union.mp he
    have hpos : 0 < l.countP below := List.countP_pos_iff.mpr ⟨e, hel, hbelowe⟩
    have hle : l.countP below ≤ l.length := List.countP_le_length
    have hl' := hnone l hl
    rw [ListCursor.element?_before, if_neg (by omega), List.getElem?_eq_none_iff] at hl'
    omega
  rw [ListCursor.element?_before, if_pos hzero]

/-- The comparison that makes an element the better one on a side: the lesser one going forward,
the greater one going backward. -/
def wanted (forward : Bool) : Ordering := if forward then .lt else .gt

/-- **Where the lists stand at a cut, the union stands at the best of their elements.** -/
theorem element?_cut_union [TransCmp cmp] {forward : Bool} (hasc : ∀ l ∈ ls, Ascending cmp l)
    (hsep : Separate cmp ls) (hbelow : Lower cmp below) {l : List FeatureStructure} (hl : l ∈ ls)
    (hx : (cut forward l below).element? = some x)
    (hbest : ∀ m ∈ ls, ∀ y, (cut forward m below).element? = some y → cmp y x ≠ wanted forward) :
    (cut forward (union cmp ls) below).element? = some x := by
  cases forward with
  | true => exact element?_after_union hasc hsep hbelow hl hx hbest
  | false => exact element?_before_union hasc hsep hbelow hl hx hbest

theorem element?_cut_union_eq_none [TransCmp cmp] (forward : Bool)
    (hasc : ∀ l ∈ ls, Ascending cmp l) (hsep : Separate cmp ls) (hbelow : Lower cmp below)
    (hnone : ∀ l ∈ ls, (cut forward l below).element? = none) :
    (cut forward (union cmp ls) below).element? = none := by
  cases forward with
  | true => exact element?_after_union_eq_none hasc hsep hbelow hnone
  | false => exact element?_before_union_eq_none hnone

end Union

/-! ### Selecting a cursor -/

namespace Merge

variable {σ : Type}

section Select

variable {c : Comparator} {want : Ordering}

/-- The best of some candidates: none where there are none, and else one that no candidate beats. -/
def Best (c : Comparator) (want : Ordering) (seen : List (Option FeatureStructure)) :
    Option (Nat × FeatureStructure) → Prop
  | none => ∀ o ∈ seen, o = none
  | some (i, x) => seen[i]? = some (some x) ∧ ∀ y, some y ∈ seen → c.compareFully y x ≠ want

theorem best_append {seen : List (Option FeatureStructure)}
    {best : Option (Nat × FeatureStructure)}
    (htrans : ∀ x y z, c.compareFully x y = want → c.compareFully y z = want →
      c.compareFully x z = want)
    (hirrefl : want ≠ .eq) (h : Best c want seen best) (o : Option FeatureStructure) :
    Best c want (seen ++ [o]) (better c want best seen.length o) := by
  cases o with
  | none =>
      cases best with
      | none =>
          intro o ho
          rcases List.mem_append.mp ho with ho | ho
          · exact h o ho
          · exact List.mem_singleton.mp ho
      | some p =>
          obtain ⟨hi, hbest⟩ := h
          refine ⟨?_, by simpa using hbest⟩
          rw [List.getElem?_append_left (List.getElem?_eq_some_iff.mp hi).1]
          exact hi
  | some e =>
      -- no candidate beats itself
      have hself : c.compareFully e e ≠ want := by
        have heq : c.compareFully e e = .eq := Std.ReflCmp.compare_self
        rw [heq]
        exact hirrefl.symm
      cases best with
      | none =>
          refine ⟨List.getElem?_concat_length, fun y hy => ?_⟩
          rcases List.mem_append.mp hy with hy | hy
          · cases h _ hy
          · cases List.mem_singleton.mp hy
            exact hself
      | some p =>
          obtain ⟨i, x⟩ := p
          obtain ⟨hi, hbest⟩ := h
          rw [better]
          split
          -- the new candidate is the better one, and beats what the old one beat
          next hex =>
            refine ⟨List.getElem?_concat_length, fun y hy => ?_⟩
            rcases List.mem_append.mp hy with hy | hy
            · exact fun hye => hbest y hy (htrans y e x hye hex)
            · cases List.mem_singleton.mp hy
              exact hself
          next hex =>
            constructor
            · rw [List.getElem?_append_left (List.getElem?_eq_some_iff.mp hi).1]
              exact hi
            · intro y hy
              rcases List.mem_append.mp hy with hy | hy
              · exact hbest y hy
              · cases List.mem_singleton.mp hy
                exact hex

theorem best_foldl (htrans : ∀ x y z, c.compareFully x y = want → c.compareFully y z = want →
      c.compareFully x z = want)
    (hirrefl : want ≠ .eq) (subs : List (SortedCursor σ)) (seen : List (Option FeatureStructure))
    (best : Option (Nat × FeatureStructure)) (h : Best c want seen best) :
    Best c want (seen ++ subs.map SortedCursor.element?)
      ((subs.zipIdx seen.length).foldl
        (fun best p => better c want best p.2 p.1.element?) best) := by
  induction subs generalizing seen best with
  | nil => simpa using h
  | cons s rest ih =>
      have hnext := ih _ _ (best_append htrans hirrefl h s.element?)
      rw [List.length_append, List.length_singleton, List.append_assoc] at hnext
      exact hnext

/-- What a selection finds: no cursor, where none stands at an element, and else one whose element
no other one beats. -/
theorem select_spec (htrans : ∀ x y z, c.compareFully x y = want → c.compareFully y z = want →
      c.compareFully x z = want)
    (hirrefl : want ≠ .eq) (subs : List (SortedCursor σ)) :
    (select c want subs = none ∧ ∀ s ∈ subs, s.element? = none) ∨
    ∃ i s x, select c want subs = some i ∧ subs[i]? = some s ∧ s.element? = some x ∧
      ∀ t ∈ subs, ∀ y, t.element? = some y → c.compareFully y x ≠ want := by
  have hbest := best_foldl htrans hirrefl subs [] none nofun
  rw [List.nil_append] at hbest
  rw [select]
  cases hfold : subs.zipIdx.foldl (fun best p => better c want best p.2 p.1.element?) none with
  | none =>
      simp only [List.length_nil, hfold] at hbest
      exact .inl ⟨rfl, fun s hs => hbest _ (List.mem_map_of_mem hs)⟩
  | some p =>
      obtain ⟨i, x⟩ := p
      simp only [List.length_nil, hfold] at hbest
      obtain ⟨hi, hmost⟩ := hbest
      rw [List.getElem?_map, Option.map_eq_some_iff] at hi
      obtain ⟨s, hs, hx⟩ := hi
      refine .inr ⟨i, s, x, rfl, hs, hx, fun t ht y hy => hmost y ?_⟩
      exact List.mem_map.mpr ⟨t, ht, hy⟩

/-- What a selection on a side finds. -/
theorem select_wanted (c : Comparator) (forward : Bool) (subs : List (SortedCursor σ)) :
    (select c (wanted forward) subs = none ∧ ∀ s ∈ subs, s.element? = none) ∨
    ∃ i s x, select c (wanted forward) subs = some i ∧ subs[i]? = some s ∧ s.element? = some x ∧
      ∀ t ∈ subs, ∀ y, t.element? = some y → c.compareFully y x ≠ wanted forward := by
  cases forward with
  | true => exact select_spec (fun _ _ _ => TransCmp.lt_trans) nofun subs
  | false => exact select_spec (fun _ _ _ => TransCmp.gt_trans) nofun subs

end Select

/-! ### Sound merges -/

end Merge

namespace SortedCursor

variable {σ : Type}

/-- What a cursor is bound to: all of it but its position. -/
def binding (s : SortedCursor σ) : σ × Comparator × Snapshot :=
  (s.source, s.comparator, s.cursor.view)

@[simp] theorem view_step (m : Step) (s : SortedCursor σ) :
    (s.step m).cursor.view = s.cursor.view := by
  obtain ⟨source, comparator, view, position⟩ := s
  cases m <;> cases position <;> rfl

theorem binding_step (m : Step) (s : SortedCursor σ) : (s.step m).binding = s.binding := by
  rw [binding, view_step]
  rfl

theorem list_step (m : Step) (s : SortedCursor σ) :
    (s.step m).cursor.list = s.cursor.list.step m :=
  s.cursor.list_step m

/-- Stand at the first element after a structure, or at the last one before it. -/
def place (forward : Bool) : FeatureStructure → SortedCursor σ → SortedCursor σ :=
  if forward then placeAfter else placeBefore

@[simp] theorem binding_place (forward : Bool) (x : FeatureStructure) (s : SortedCursor σ) :
    (s.place forward x).binding = s.binding := by
  cases forward <;> rfl

/-- A cursor is placed by a cut of its list. -/
theorem list_place {c : Comparator} {s : SortedCursor σ} (hc : s.comparator.Agrees c)
    (hs : Ascending c.compareFully s.cursor.view.elements) (forward : Bool) (x : FeatureStructure) :
    (s.place forward x).cursor.list =
      cut forward s.cursor.view.elements (edge c.compareFully (!forward) x) := by
  cases forward with
  | true =>
      show (s.cursor.seek (Bisection.splitPoint _ _ _)).list = _
      rw [hc.compareFully, Bisection.splitPoint_eq_countP ((lower_ne_gt x).cuts hs)]
      rfl
  | false =>
      show (s.cursor.seekBack (Bisection.splitPoint _ _ _)).list = _
      rw [hc.compareFully, Bisection.splitPoint_eq_countP ((lower_lt x).cuts hs)]
      rfl

end SortedCursor

/-- The step from an element leads to the other edge of its cut. -/
theorem ListCursor.step_ahead {cmp : FeatureStructure → FeatureStructure → Ordering} [TransCmp cmp]
    {l : List FeatureStructure} {x : FeatureStructure} {p : Nat} (hl : Ascending cmp l)
    (hx : l[p]? = some x) (forward : Bool) :
    step (.ahead forward) ⟨l, some p⟩ = cut forward l (edge cmp (!forward) x) := by
  cases forward with
  | true => exact step_next_eq hl hx
  | false => exact step_previous_eq hl hx

theorem lower_edge {cmp : FeatureStructure → FeatureStructure → Ordering} [TransCmp cmp]
    (forward : Bool) (x : FeatureStructure) : Lower cmp (edge cmp forward x) := by
  cases forward with
  | true => exact lower_lt x
  | false => exact lower_ne_gt x

theorem edge_not {cmp : FeatureStructure → FeatureStructure → Ordering} {x e : FeatureStructure}
    (h : cmp e x ≠ .eq) (forward : Bool) : edge cmp (!forward) x e = edge cmp forward x e := by
  cases forward <;> cases hc : cmp e x <;> simp_all [edge]

namespace Merge

variable {σ : Type}

/-- The lists that the cursors of a merge are bound to. -/
def views (m : Merge σ) : List (List FeatureStructure) := m.subs.map fun s => s.cursor.view.elements

/-- What a merge walks: the union of what its cursors are bound to. -/
def union (m : Merge σ) : List FeatureStructure :=
  FeatureIndex.union m.comparator.compareFully m.views

/-- All cursors of the merge order alike and are bound to ascending lists, and no two of them are
bound to elements that agree in key and id. -/
structure Sound (m : Merge σ) : Prop where
  agrees : ∀ s ∈ m.subs, s.comparator.Agrees m.comparator
  ascending : ∀ l ∈ m.views, Ascending m.comparator.compareFully l
  separate : Separate m.comparator.compareFully m.views

/-- Every cursor of the merge is cut at `x`: at its first element that is not before `x`, or, going
backward, at its last element that is not after `x`. -/
def Around (m : Merge σ) (x : FeatureStructure) : Prop :=
  ∀ s ∈ m.subs, s.cursor.list =
    cut m.forward s.cursor.view.elements (edge m.comparator.compareFully m.forward x)

/-- A sound merge stands where a cursor over the union stands: nowhere, or with all its cursors
around the same element. -/
structure Stands (m : Merge σ) (c : ListCursor) : Prop where
  sound : m.Sound
  items : c.items = m.union
  position : (m.current = none ∧ c.position = none) ∨
    ∃ i s p x, m.current = some i ∧ m.subs[i]? = some s ∧ s.element? = some x ∧
      c.position = some p ∧ c.items[p]? = some x ∧ m.Around x

section Sound

variable {m : Merge σ} {subs : List (SortedCursor σ)}

theorem views_eq (m : Merge σ) :
    m.views = (m.subs.map SortedCursor.binding).map fun b => b.2.2.elements := by
  rw [List.map_map]
  rfl

/-- Cursors bound to the same make the same union. -/
theorem union_congr (h : subs.map SortedCursor.binding = m.subs.map SortedCursor.binding) :
    union { m with subs } = m.union := by
  rw [union, union, views_eq, views_eq, h]

theorem Sound.congr (hm : m.Sound)
    (h : subs.map SortedCursor.binding = m.subs.map SortedCursor.binding) :
    Sound { m with subs } := by
  have hviews : views { m with subs } = m.views := by rw [views_eq, views_eq, h]
  refine ⟨?_, ?_, ?_⟩
  · intro s hs
    have hbinding : s.binding ∈ m.subs.map SortedCursor.binding := by
      rw [← h]
      exact List.mem_map_of_mem hs
    obtain ⟨s', hs', heq⟩ := List.mem_map.mp hbinding
    have hcomparator : s'.comparator = s.comparator := congrArg (·.2.1) heq
    rw [← hcomparator]
    exact hm.agrees s' hs'
  · rw [hviews]
    exact hm.ascending
  · rw [hviews]
    exact hm.separate

/-- Where the cursors stand does not matter. -/
theorem sound_congr {m' : Merge σ} (hcomparator : m'.comparator = m.comparator)
    (h : m'.subs.map SortedCursor.binding = m.subs.map SortedCursor.binding) :
    m'.Sound ↔ m.Sound := by
  obtain ⟨subs, comparator, current, forward⟩ := m
  obtain ⟨subs', comparator', current', forward'⟩ := m'
  obtain rfl : comparator' = comparator := hcomparator
  constructor
  · intro hm
    have hsound : (⟨subs, comparator', current', forward'⟩ : Merge σ).Sound := hm.congr h.symm
    exact ⟨hsound.agrees, hsound.ascending, hsound.separate⟩
  · intro hm
    have hsound : (⟨subs', comparator', current, forward⟩ : Merge σ).Sound := hm.congr h
    exact ⟨hsound.agrees, hsound.ascending, hsound.separate⟩

theorem Sound.ascending_view (hm : m.Sound) {s : SortedCursor σ} (hs : s ∈ m.subs) :
    Ascending m.comparator.compareFully s.cursor.view.elements :=
  hm.ascending _ (List.mem_map_of_mem hs)

theorem Sound.ascending_union (hm : m.Sound) : Ascending m.comparator.compareFully m.union :=
  FeatureIndex.ascending_union hm.ascending hm.separate

/-- What one cursor is bound to has no equal in what another one is bound to. -/
theorem Sound.compare_ne_eq (hm : m.Sound) {i j : Nat} (hij : i ≠ j) {s t : SortedCursor σ}
    (hs : m.subs[i]? = some s) (ht : m.subs[j]? = some t) {a b : FeatureStructure}
    (ha : a ∈ s.cursor.view.elements) (hb : b ∈ t.cursor.view.elements) :
    m.comparator.compareFully a b ≠ .eq := by
  obtain ⟨hi, rfl⟩ := List.getElem?_eq_some_iff.mp hs
  obtain ⟨hj, rfl⟩ := List.getElem?_eq_some_iff.mp ht
  have hsep := List.pairwise_iff_getElem.mp hm.separate
  have hlen : m.views.length = m.subs.length := List.length_map ..
  rcases Nat.lt_or_gt_of_ne hij with hlt | hgt
  · have := hsep i j (by omega) (by omega) hlt
    simp only [views, List.getElem_map] at this
    exact this a ha b hb
  · have := hsep j i (by omega) (by omega) hgt
    simp only [views, List.getElem_map] at this
    exact fun heq => this b hb a ha (OrientedCmp.eq_symm heq)

end Sound

/-! ### Standing at a cut -/

section Cut

variable {m : Merge σ} {below : FeatureStructure → Bool}

/-- The merge after a selection on a side. -/
def selected (m : Merge σ) (forward : Bool) : Merge σ :=
  { m with current := select m.comparator (wanted forward) m.subs, forward }

/-- **A merge whose cursors stand at a cut stands at that cut of the union.** -/
theorem stands_selected (forward : Bool) (hm : m.Sound)
    (hbelow : Lower m.comparator.compareFully below)
    (hs : ∀ s ∈ m.subs, s.cursor.list = cut forward s.cursor.view.elements below) :
    Stands (m.selected forward) (cut forward m.union below) := by
  refine ⟨⟨hm.agrees, hm.ascending, hm.separate⟩, ListCursor.items_cut .., ?_⟩
  -- a cursor stands at what the cut of its list stands at
  have hviews : ∀ l ∈ m.views, ∃ s ∈ m.subs, s.element? = (cut forward l below).element? := by
    intro l hl
    obtain ⟨s, hsm, rfl⟩ := List.mem_map.mp hl
    exact ⟨s, hsm, by rw [← hs s hsm]; rfl⟩
  rcases select_wanted m.comparator forward m.subs with
    ⟨hnone, hall⟩ | ⟨i, s, x, hsome, hi, hx, hbest⟩
  · -- no cursor stands at an element, and neither does the union
    refine .inl ⟨hnone, ?_⟩
    have helem := element?_cut_union_eq_none forward hm.ascending hm.separate hbelow
      fun l hl => by
        obtain ⟨s, hsm, heq⟩ := hviews l hl
        rw [← heq]
        exact hall s hsm
    have hvalid := (ListCursor.inRange_cut forward m.union below).isValid_eq
    rw [union, helem] at hvalid
    exact Option.isSome_eq_false_iff.mp hvalid |> Option.isNone_iff_eq_none.mp
  · -- the selected cursor stands where the union does, and the cut there is its own
    have hsm : s ∈ m.subs := List.mem_of_getElem? hi
    have hxs : (cut forward s.cursor.view.elements below).element? = some x := by
      rw [← hs s hsm]
      exact hx
    have hxu : (cut forward m.union below).element? = some x := by
      refine element?_cut_union hm.ascending hm.separate hbelow (List.mem_map_of_mem hsm) hxs ?_
      intro l hl y hy
      obtain ⟨t, htm, heq⟩ := hviews l hl
      exact hbest t htm y (heq.trans hy)
    obtain ⟨hcond, p, hcut, hp⟩ :=
      ListCursor.cut_eq hm.ascending_union (hbelow.cuts hm.ascending_union) hxu
    refine .inr ⟨i, s, p, x, hsome, hi, hx, congrArg ListCursor.position hcut, ?_, fun t ht => ?_⟩
    · rw [ListCursor.items_cut]
      exact hp
    · show t.cursor.list = cut forward t.cursor.view.elements
        (edge m.comparator.compareFully forward x)
      rw [hs t ht]
      refine ListCursor.cut_congr fun e he => hcond e (mem_union.mpr ⟨_, ?_, he⟩)
      exact List.mem_map_of_mem ht

end Cut

/-! ### Moving -/

section Moves

variable {m : Merge σ} {c : ListCursor}

/-- The cursors of a merge on their way to the next element on a side: the others are placed anew
when the direction turns, and the current one takes a step. -/
def advanced (m : Merge σ) (forward : Bool) (i : Nat) : List (SortedCursor σ) :=
  (if m.forward = forward then m.subs
    else m.replaceOthers i (SortedCursor.place forward)).modify i
      (SortedCursor.step (.ahead forward))

theorem step_ahead_none (forward : Bool) (hi : m.current = none) :
    m.step (.ahead forward) = m := by
  cases forward <;> simp [Step.ahead, step, hi]

theorem step_ahead (forward : Bool) {i : Nat} (hi : m.current = some i) :
    m.step (.ahead forward) = selected { m with subs := m.advanced forward i } forward := by
  obtain ⟨subs, comparator, current, direction⟩ := m
  cases hi
  cases forward <;> cases direction <;> rfl

theorem getElem?_advanced {i : Nat} {x : FeatureStructure} (hx : m.element? = some x)
    (forward : Bool) (j : Nat) :
    (m.advanced forward i)[j]? = m.subs[j]?.map fun s =>
      if i = j then s.step (.ahead forward)
      else if m.forward = forward then s else s.place forward x := by
  rw [advanced, List.getElem?_modify]
  by_cases hforward : m.forward = forward
  · simp only [hforward, ↓reduceIte]
    rfl
  · simp only [hforward, ↓reduceIte, replaceOthers, hx, List.getElem?_mapIdx]
    cases m.subs[j]? with
    | none => rfl
    | some s => by_cases hij : i = j <;> simp [hij, eq_comm (a := j)]

/-- No cursor is bound anew. -/
theorem binding_advanced (m : Merge σ) (forward : Bool) (i : Nat) :
    (m.advanced forward i).map SortedCursor.binding = m.subs.map SortedCursor.binding := by
  rw [advanced, map_modify fun s => s.binding_step _]
  split
  · rfl
  · unfold replaceOthers
    split
    next here _ =>
      apply List.ext_getElem?
      intro j
      rw [List.getElem?_map, List.getElem?_map, List.getElem?_mapIdx, Option.map_map]
      congr 1
      funext s
      simp only [Function.comp_apply]
      split
      · rfl
      · exact s.binding_place forward here
    next => rfl

/-- The cursors come to stand at the other edge of the current element. -/
theorem list_advanced (hm : m.Sound) {i : Nat} {s : SortedCursor σ} {x : FeatureStructure}
    (hi : m.current = some i) (hs : m.subs[i]? = some s) (hx : s.element? = some x)
    (haround : m.Around x) (forward : Bool) :
    ∀ t ∈ m.advanced forward i, t.cursor.list =
      cut forward t.cursor.view.elements (edge m.comparator.compareFully (!forward) x) := by
  intro t ht
  have hxm : m.element? = some x := by rw [element?, hi, Option.bind_some, hs]; exact hx
  obtain ⟨j, hj⟩ := List.getElem?_of_mem ht
  rw [getElem?_advanced hxm, Option.map_eq_some_iff] at hj
  obtain ⟨t₀, ht₀, rfl⟩ := hj
  have hmem := List.mem_of_getElem? ht₀
  have hasc := hm.ascending_view hmem
  split
  next hij =>
    -- the current cursor, which stands at `x` itself
    subst hij
    rw [hs] at ht₀
    cases ht₀
    have hlist := haround s hmem
    have hxs : (cut m.forward s.cursor.view.elements
        (edge m.comparator.compareFully m.forward x)).element? = some x := hlist ▸ hx
    obtain ⟨-, p, hcut, hp⟩ := ListCursor.cut_eq hasc ((lower_edge _ x).cuts hasc) hxs
    rw [SortedCursor.list_step, SortedCursor.view_step, hlist, hcut]
    exact ListCursor.step_ahead hasc hp forward
  next hij =>
    split
    next hforward =>
      -- a cursor that goes on in its direction has no element that is equal to `x`
      rw [haround t₀ hmem, hforward]
      refine ListCursor.cut_congr fun e he => (edge_not ?_ forward).symm
      have hxmem : x ∈ s.cursor.view.elements := by
        rw [SortedCursor.element?, Cursor.element?, Option.bind_eq_some_iff] at hx
        obtain ⟨p, -, hp⟩ := hx
        exact List.mem_of_getElem? hp
      exact hm.compare_ne_eq (Ne.symm hij) ht₀ hs he hxmem
    next =>
      rw [SortedCursor.list_place (hm.agrees t₀ hmem) hasc]
      cases forward <;> rfl

/-- A step binds no cursor anew, wherever the merge stands. -/
theorem binding_step (m : Merge σ) (s : Step) :
    (m.step s).comparator = m.comparator ∧
      (m.step s).subs.map SortedCursor.binding = m.subs.map SortedCursor.binding := by
  have hahead : ∀ forward, (m.step (.ahead forward)).comparator = m.comparator ∧
      (m.step (.ahead forward)).subs.map SortedCursor.binding =
        m.subs.map SortedCursor.binding := by
    intro forward
    cases hi : m.current with
    | none =>
        rw [step_ahead_none forward hi]
        exact ⟨rfl, rfl⟩
    | some i =>
        rw [step_ahead forward hi]
        exact ⟨rfl, m.binding_advanced forward i⟩
  cases s with
  | first =>
      refine ⟨rfl, ?_⟩
      show (m.subs.map _).map _ = _
      rw [List.map_map]
      exact List.map_congr_left fun s _ => s.binding_step .first
  | last =>
      refine ⟨rfl, ?_⟩
      show (m.subs.map _).map _ = _
      rw [List.map_map]
      exact List.map_congr_left fun s _ => s.binding_step .last
  | next => exact hahead true
  | previous => exact hahead false

theorem Stands.step_ahead (h : m.Stands c) (forward : Bool) :
    Stands (m.step (.ahead forward)) (c.step (.ahead forward)) := by
  -- nowhere there is nothing to step from, and else all cursors go to the other edge of `x`
  rcases h.position with ⟨hnone, hpos⟩ | ⟨i, s, p, x, hi, hs, hx, hp, hxp, haround⟩
  · rw [step_ahead_none forward hnone, ListCursor.step_ahead_none forward hpos]
    exact h
  · have hbinding := m.binding_advanced forward i
    have hsel := stands_selected forward (h.sound.congr hbinding) (lower_edge (!forward) x)
      (list_advanced h.sound hi hs hx haround forward)
    rw [union_congr hbinding] at hsel
    obtain ⟨items, position⟩ := c
    cases hp
    obtain rfl : items = m.union := h.items
    rw [Merge.step_ahead forward hi, ListCursor.step_ahead h.sound.ascending_union hxp]
    exact hsel

/-- Cursors that all take the step to an end of their lists stand at the cut of that end. -/
theorem stands_at_end (hm : m.Sound) (forward : Bool) {subs : List (SortedCursor σ)}
    (hbinding : subs.map SortedCursor.binding = m.subs.map SortedCursor.binding)
    (hs : ∀ s ∈ subs, s.cursor.list = cut forward s.cursor.view.elements fun _ => !forward) :
    Stands (selected { m with subs } forward) (cut forward m.union fun _ => !forward) := by
  have hsel := stands_selected forward (hm.congr hbinding) (lower_const _) hs
  rwa [union_congr hbinding] at hsel

/-- A move to an end brings the merge there, wherever its cursors stand. -/
theorem Sound.stands_first (hm : m.Sound) :
    Stands (m.step .first) (ListCursor.step .first ⟨m.union, none⟩) := by
  rw [ListCursor.step_first]
  apply stands_at_end hm true (m.binding_step .first).2
  intro s hs
  obtain ⟨s, -, rfl⟩ := List.mem_map.mp hs
  rw [s.list_step, ListCursor.step_first, s.view_step]
  rfl

theorem Sound.stands_last (hm : m.Sound) :
    Stands (m.step .last) (ListCursor.step .last ⟨m.union, none⟩) := by
  rw [ListCursor.step_last]
  apply stands_at_end hm false (m.binding_step .last).2
  intro s hs
  obtain ⟨s, -, rfl⟩ := List.mem_map.mp hs
  rw [s.list_step, ListCursor.step_last, s.view_step]
  rfl

theorem Stands.step_first (h : m.Stands c) : Stands (m.step .first) (c.step .first) := by
  have hstands := h.sound.stands_first
  rw [← h.items] at hstands
  exact hstands

theorem Stands.step_last (h : m.Stands c) : Stands (m.step .last) (c.step .last) := by
  have hstands := h.sound.stands_last
  rw [← h.items] at hstands
  exact hstands

/-- **Every move of a merge is the move of a list cursor over the union.** -/
theorem Stands.step (h : m.Stands c) (s : Step) : Stands (m.step s) (c.step s) := by
  cases s with
  | first => exact h.step_first
  | last => exact h.step_last
  | next => exact h.step_ahead true
  | previous => exact h.step_ahead false

theorem Stands.inRange (h : m.Stands c) : c.InRange := by
  intro p hp
  rcases h.position with ⟨-, hnone⟩ | ⟨i, s, q, x, -, -, -, hq, hx, -⟩
  · rw [hp] at hnone
    cases hnone
  · rw [hp] at hq
    cases hq
    exact (List.getElem?_eq_some_iff.mp hx).1

theorem Stands.isValid (h : m.Stands c) : m.isValid = c.isValid := by
  rcases h.position with ⟨hnone, hp⟩ | ⟨i, s, p, x, hi, -, -, hp, -, -⟩
  · rw [Merge.isValid, hnone, ListCursor.isValid, hp]
  · rw [Merge.isValid, hi, ListCursor.isValid, hp]
    rfl

theorem Stands.element? (h : m.Stands c) : m.element? = c.element? := by
  rcases h.position with ⟨hnone, hp⟩ | ⟨i, s, p, x, hi, hs, hx, hp, hxp, -⟩
  · rw [Merge.element?, hnone, ListCursor.element?, hp]
    rfl
  · rw [Merge.element?, hi, Option.bind_some, hs, Option.bind_some, hx, ListCursor.element?, hp,
      Option.bind_some, hxp]

end Moves

/-! ### Binding -/

section Binding

variable {m : Merge σ} {live : σ → Snapshot}

/-- The merge standing nowhere, with every cursor bound to what its source holds now. -/
def rebound (live : σ → Snapshot) (m : Merge σ) : Merge σ :=
  ⟨m.subs.map fun s => ⟨s.source, s.comparator, ⟨live s.source, none⟩⟩, m.comparator, none, true⟩

/-- Where a rebinding leads in a list: to the first element, to the last one, or to the first one
whose key is not less than that of the target. -/
def landing (c : Comparator) (l : List FeatureStructure) : Rebind → ListCursor
  | .first => ListCursor.step .first ⟨l, none⟩
  | .last => ListCursor.step .last ⟨l, none⟩
  | .toward target => after l fun e => c.compare e target == .lt

theorem lower_key (c : Comparator) (target : FeatureStructure) :
    Lower c.compareFully fun e => c.compare e target == .lt := by
  intro a b hab hb
  rw [beq_iff_eq] at hb ⊢
  exact TransCmp.lt_of_isLE_of_lt (Comparator.compare_isLE_of_compareFully (by rw [hab]; rfl)) hb

/-- The landing of a rebinding is a cut. -/
theorem exists_cut_landing (c : Comparator) (r : Rebind) : ∃ forward below,
    Lower c.compareFully below ∧ (∀ l, landing c l r = cut forward l below) ∧
    ∀ (live : σ → Snapshot) (m : Merge σ), m.rebind live r =
      selected { m with subs := m.subs.map (SortedCursor.rebind live r) } forward := by
  cases r with
  | first =>
      refine ⟨true, fun _ => false, lower_const false, ?_, fun _ _ => rfl⟩
      intro l
      rw [landing, ListCursor.step_first]
      rfl
  | last =>
      refine ⟨false, fun _ => true, lower_const true, ?_, fun _ _ => rfl⟩
      intro l
      rw [landing, ListCursor.step_last]
      rfl
  | toward target =>
      exact ⟨true, _, lower_key c target, fun l => rfl, fun _ _ => rfl⟩

theorem binding_rebind (live : σ → Snapshot) (r : Rebind) (s : SortedCursor σ) :
    (s.rebind live r).binding = (s.source, s.comparator, live s.source) := by
  cases r <;> rfl

theorem list_rebind {c : Comparator} {s : SortedCursor σ} (hc : s.comparator.Agrees c)
    (hs : Ascending c.compareFully (live s.source).elements) (r : Rebind) :
    (s.rebind live r).cursor.list = landing c (live s.source).elements r := by
  cases r with
  | first => rfl
  | last => rfl
  | toward target =>
      show (Cursor.seek _ (Bisection.splitPoint _ _ _)).list = _
      rw [hc.compare, Bisection.splitPoint_eq_countP ((lower_key c target).cuts hs)]
      rfl

/-- Only positions tell rebound cursors from those of the rebound merge. -/
theorem binding_subs_rebind (live : σ → Snapshot) (r : Rebind) (m : Merge σ) :
    (m.subs.map (SortedCursor.rebind live r)).map SortedCursor.binding =
      (m.rebound live).subs.map SortedCursor.binding := by
  rw [List.map_map, rebound, List.map_map]
  exact List.map_congr_left fun s _ => binding_rebind live r s

theorem sound_rebind_iff (live : σ → Snapshot) (r : Rebind) (m : Merge σ) :
    (m.rebind live r).Sound ↔ (m.rebound live).Sound := by
  apply sound_congr
  · cases r <;> rfl
  · rw [← binding_subs_rebind live r]
    cases r <;> rfl

/-- **A merge that rebinds stands where a list cursor over the new union is put.** -/
theorem stands_rebind (live : σ → Snapshot) (m : Merge σ) (hm : (m.rebound live).Sound)
    (r : Rebind) : Stands (m.rebind live r) (landing m.comparator (m.rebound live).union r) := by
  have hbinding := binding_subs_rebind live r m
  obtain ⟨forward, below, hbelow, hlanding, hrebind⟩ := exists_cut_landing (σ := σ) m.comparator r
  have hs : ∀ s ∈ m.subs.map (SortedCursor.rebind live r),
      s.cursor.list = cut forward s.cursor.view.elements below := by
    intro t ht
    obtain ⟨s, hs, rfl⟩ := List.mem_map.mp ht
    have hmem : ⟨s.source, s.comparator, ⟨live s.source, none⟩⟩ ∈ (m.rebound live).subs :=
      List.mem_map.mpr ⟨s, hs, rfl⟩
    have hagrees := hm.agrees _ hmem
    have hasc := hm.ascending_view hmem
    rw [list_rebind (c := m.comparator) (s := s) hagrees hasc r, hlanding]
    congr 1
    exact (congrArg (·.2.2.elements) (binding_rebind live r s)).symm
  have hsel := stands_selected forward (hm.congr hbinding) hbelow hs
  rw [union_congr hbinding, ← hlanding] at hsel
  rw [hrebind]
  exact hsel

/-- Neither steps nor rebindings change what a merge will be bound to. -/
@[simp] theorem rebound_step (live : σ → Snapshot) (m : Merge σ) (s : Step) :
    (m.step s).rebound live = m.rebound live := by
  have hrebound : ∀ m : Merge σ, m.rebound live = ⟨(m.subs.map SortedCursor.binding).map fun b =>
      ⟨b.1, b.2.1, ⟨live b.1, none⟩⟩, m.comparator, none, true⟩ := by
    intro m
    rw [List.map_map]
    rfl
  obtain ⟨hcomparator, hbinding⟩ := m.binding_step s
  rw [hrebound, hrebound, hcomparator, hbinding]

@[simp] theorem rebound_rebind (live live' : σ → Snapshot) (m : Merge σ) (r : Rebind) :
    (m.rebind live r).rebound live' = m.rebound live' := by
  have hsubs : (m.rebind live r).subs = m.subs.map (SortedCursor.rebind live r) := by
    cases r <;> rfl
  have hcomparator : (m.rebind live r).comparator = m.comparator := by cases r <;> rfl
  rw [rebound, rebound, hsubs, hcomparator, List.map_map]
  rfl

end Binding

/-! ### Building -/

/-- Cursors that order alike can be merged. -/
theorem ofCursors_eq {c : Comparator} {subs : List (SortedCursor σ)} (hne : subs ≠ [])
    (h : ∀ s ∈ subs, s.comparator = c) :
    ofCursors subs = .ok (selected ⟨subs, c, none, true⟩ true) := by
  cases subs with
  | nil => exact absurd rfl hne
  | cons s rest =>
      have hs : s.comparator = c := h s List.mem_cons_self
      have hnone : (s :: rest).find? (fun t => !t.comparator.ordersLike s.comparator) = none := by
        rw [List.find?_eq_none]
        intro t ht
        rw [h t ht, hs, Comparator.ordersLike]
        simp
      rw [ofCursors, hnone, hs]
      rfl

/-- Cursors that stand at their first elements make a merge that stands at its first element. -/
theorem stands_start {m : Merge σ} (hm : m.Sound)
    (hs : ∀ s ∈ m.subs, s.cursor.list = ListCursor.step .first ⟨s.cursor.view.elements, none⟩) :
    Stands (m.selected true) (ListCursor.step .first ⟨m.union, none⟩) := by
  rw [ListCursor.step_first]
  apply stands_selected true hm (lower_const false)
  intro s hsm
  rw [hs s hsm, ListCursor.step_first]
  rfl

end Merge
end FeatureIndex
