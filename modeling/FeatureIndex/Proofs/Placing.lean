import FeatureIndex.Proofs.Concat
import FeatureIndex.Proofs.Ending
import FeatureIndex.Proofs.Merge
import Mathlib.Algebra.Order.BigOperators.Group.List
import Mathlib.Algebra.Order.Ring.Nat

/-!
# Placed merges and concatenations

A merge and a concatenation keep the number of their current cursor, and are valid where they have
one. They are placed when that cursor stands at an element, and all others are in range
(`Merge.Placed`, `Concat.Placed`). All moves keep them so, whatever their cursors walk.

Steps to one side leave a placed merge or concatenation in the end. A merge first turns, and places
all of its cursors anew; from then on each step passes an element (`Merge.sum_toPass_advanced`). A
concatenation enters each cursor behind the current one at an end, so that it counts in full
wherever it stood before (`Concat.toGo_leave_le`).
-/

namespace FeatureIndex

variable {S : Type} {w : Walk S} {P : S → Prop} {count : Bool → S → Nat}

/-! ### Cursors over one snapshot -/

namespace Cursor

variable {c : Cursor}

theorem inRange_step (h : c.list.InRange) (m : Step) : (c.step m).list.InRange := by
  rw [list_step]
  exact h.step m

theorem toGo_pos (h : c.list.InRange) (hv : c.isValid = true) (forward : Bool) :
    0 < Filtered.toPass forward c.list := by
  rw [isValid_eq h, ListCursor.isValid] at hv
  obtain ⟨p, hp⟩ := Option.isSome_iff_exists.mp hv
  have hlt := h p hp
  rw [Filtered.toPass, hp]
  dsimp only
  split <;> omega

theorem toGo_step (h : c.list.InRange) (forward : Bool) :
    Filtered.toPass forward (c.step (.ahead forward)).list ≤
      Filtered.toPass forward c.list - 1 := by
  rw [list_step]
  cases hp : c.list.position with
  | none =>
      rw [ListCursor.step_ahead_none forward hp, Filtered.toPass, hp]
      exact Nat.zero_le _
  | some p =>
      have := Filtered.toPass_step forward hp (h p hp)
      omega

end Cursor

section Leaves

variable {σ : Type} (live : σ → Snapshot) (r : Rebind)

theorem SortedCursor.inRange_place (forward : Bool) (x : FeatureStructure) (s : SortedCursor σ) :
    (s.place forward x).cursor.list.InRange := by
  cases forward with
  | true => exact ListCursor.inRange_seek s.cursor.list _
  | false => exact ListCursor.inRange_seekBack (c := s.cursor.list) (Bisection.splitPoint_le ..)

theorem SortedCursor.inRange_rebind (s : SortedCursor σ) :
    (s.rebind live r).cursor.list.InRange := by
  cases r with
  | first => exact ListCursor.inRange_seek ⟨(live s.source).elements, none⟩ _
  | last =>
      exact ListCursor.inRange_seekBack (c := ⟨(live s.source).elements, none⟩) (Nat.le_refl _)
  | toward target => exact ListCursor.inRange_seek ⟨(live s.source).elements, none⟩ _

theorem BagCursor.inRange_rebind (b : BagCursor σ) : (b.rebind live r).cursor.list.InRange := by
  cases r with
  | first => exact ListCursor.inRange_seek ⟨(live b.source).elements, none⟩ _
  | last =>
      exact ListCursor.inRange_seekBack (c := ⟨(live b.source).elements, none⟩) (Nat.le_refl _)
  | toward target => exact ListCursor.inRange_seek ⟨(live b.source).elements, none⟩ _

end Leaves

/-! ### Merges -/

/-- Counting up after one place has changed. -/
theorem sum_map_modify {α : Type} {f : α → α} {g : α → Nat} {l : List α} {i : Nat} {a : α}
    (ha : l[i]? = some a) : ((l.modify i f).map g).sum + g a = (l.map g).sum + g (f a) := by
  induction l generalizing i with
  | nil => cases ha
  | cons b l ih =>
      cases i with
      | zero =>
          cases ha
          simp only [List.modify_zero_cons, List.map_cons, List.sum_cons]
          omega
      | succ i =>
          have hrest := ih (i := i) ha
          simp only [List.modify_succ_cons, List.map_cons, List.sum_cons]
          omega

namespace Merge

variable {σ : Type} {m : Merge σ}

/-- All cursors of the merge are in range, and the current one stands at an element. -/
structure Placed (m : Merge σ) : Prop where
  inRange : ∀ s ∈ m.subs, s.cursor.list.InRange
  current : ∀ i, m.current = some i → ∃ s x, m.subs[i]? = some s ∧ s.element? = some x

/-- Within how many steps a merge leaves its elements on a side. When it first has to turn, its
cursors may be placed anywhere. -/
def toGo (forward : Bool) (m : Merge σ) : Nat :=
  match m.current with
  | none => 0
  | some _ =>
    if m.forward = forward then (m.subs.map fun s => Filtered.toPass forward s.cursor.list).sum
    else (m.subs.map fun s => s.cursor.view.size).sum + 1

theorem sum_toPass_le {subs : List (SortedCursor σ)} (h : ∀ s ∈ subs, s.cursor.list.InRange)
    (forward : Bool) : (subs.map fun s => Filtered.toPass forward s.cursor.list).sum ≤
      (subs.map fun s => s.cursor.view.size).sum :=
  List.sum_le_sum fun s hs => Filtered.toPass_le (h s hs) forward

theorem Placed.isValid_eq (h : m.Placed) : m.isValid = m.element?.isSome := by
  rw [isValid, element?]
  cases hi : m.current with
  | none => rfl
  | some i =>
      obtain ⟨s, x, hs, hx⟩ := h.current i hi
      rw [Option.bind_some, hs, Option.bind_some, hx]
      rfl

/-- **A selection places the merge**, whatever order its cursors are in. -/
theorem placed_selected (h : ∀ s ∈ m.subs, s.cursor.list.InRange) (forward : Bool) :
    (m.selected forward).Placed := by
  refine ⟨h, fun i hi => ?_⟩
  rcases select_wanted m.comparator forward m.subs with ⟨hnone, -⟩ | ⟨j, s, x, hj, hs, hx, -⟩
  · cases hnone.symm.trans hi
  · cases hj.symm.trans hi
    exact ⟨s, x, hs, hx⟩

theorem inRange_advanced (h : m.Placed) {i : Nat} (hi : m.current = some i) (forward : Bool) :
    ∀ s ∈ m.advanced forward i, s.cursor.list.InRange := by
  obtain ⟨s, x, hs, hx⟩ := h.current i hi
  have hxm : m.element? = some x := by rw [element?, hi, Option.bind_some, hs]; exact hx
  intro t ht
  obtain ⟨j, hj⟩ := List.getElem?_of_mem ht
  rw [getElem?_advanced hxm, Option.map_eq_some_iff] at hj
  obtain ⟨t₀, ht₀, rfl⟩ := hj
  have hrange := h.inRange t₀ (List.mem_of_getElem? ht₀)
  split
  · exact Cursor.inRange_step hrange _
  · split
    · exact hrange
    · exact t₀.inRange_place forward x

/-- **A step of a merge brings the end nearer**, also where the merge turns. -/
theorem sum_toPass_advanced (h : m.Placed) {i : Nat} (hi : m.current = some i) (forward : Bool) :
    ((m.advanced forward i).map fun s => Filtered.toPass forward s.cursor.list).sum + 1 ≤
      m.toGo forward := by
  obtain ⟨s, x, hs, hx⟩ := h.current i hi
  rw [toGo, hi]
  dsimp only
  split
  next hforward =>
    -- the current cursor takes a step, and the others stay
    have hrange := h.inRange s (List.mem_of_getElem? hs)
    have hvalid : s.cursor.isValid = true := congrArg Option.isSome hx
    have hpos := Cursor.toGo_pos hrange hvalid forward
    have hstep := Cursor.toGo_step hrange forward
    have hsum := sum_map_modify (f := SortedCursor.step (.ahead forward))
      (g := fun s => Filtered.toPass forward s.cursor.list) hs
    rw [advanced, if_pos hforward]
    simp only [SortedCursor.step] at hsum hstep ⊢
    omega
  next hforward =>
    have hsum := sum_toPass_le (inRange_advanced h hi forward) forward
    have hsizes := congrArg (List.map fun b => b.2.2.size) (m.binding_advanced forward i)
    rw [List.map_map, List.map_map] at hsizes
    have heq := congrArg List.sum hsizes
    exact Nat.succ_le_succ (Nat.le_trans hsum (Nat.le_of_eq heq))

theorem Placed.step (h : m.Placed) (s : Step) : (m.step s).Placed := by
  have hahead : ∀ forward, (m.step (.ahead forward)).Placed := by
    intro forward
    cases hi : m.current with
    | none => rwa [step_ahead_none forward hi]
    | some i =>
        rw [step_ahead forward hi]
        exact placed_selected (m := { m with subs := m.advanced forward i })
          (inRange_advanced h hi forward) forward
  have hend : ∀ (end? : Step) forward,
      (selected { m with subs := m.subs.map (SortedCursor.step end?) } forward).Placed := by
    intro end? forward
    refine placed_selected (m := { m with subs := _ }) ?_ forward
    intro s hs
    obtain ⟨t, ht, rfl⟩ := List.mem_map.mp hs
    exact Cursor.inRange_step (h.inRange t ht) end?
  cases s with
  | first => exact hend .first true
  | last => exact hend .last false
  | next => exact hahead true
  | previous => exact hahead false

theorem Placed.toGo_step (h : m.Placed) (forward : Bool) :
    (m.step (.ahead forward)).toGo forward ≤ m.toGo forward - 1 := by
  cases hi : m.current with
  | none =>
      rw [step_ahead_none forward hi, toGo, hi]
      exact Nat.zero_le _
  | some i =>
      have hsum := sum_toPass_advanced h hi forward
      rw [step_ahead forward hi, toGo]
      split
      · exact Nat.zero_le _
      · rw [if_pos (show (selected _ forward).forward = forward from rfl)]
        exact Nat.le_sub_one_of_lt hsum

theorem Placed.toGo_pos (h : m.Placed) (hv : m.isValid = true) (forward : Bool) :
    0 < m.toGo forward := by
  obtain ⟨i, hi⟩ := Option.isSome_iff_exists.mp hv
  have := sum_toPass_advanced h hi forward
  omega

theorem Placed.toGo_le (h : m.Placed) (forward : Bool) :
    m.toGo forward ≤ (m.subs.map fun s => s.cursor.view.size).sum + m.subs.length := by
  rw [toGo]
  split
  · exact Nat.zero_le _
  next i hi =>
    obtain ⟨s, -, hs, -⟩ := h.current i hi
    have hlength := (List.getElem?_eq_some_iff.mp hs).1
    have hsum := sum_toPass_le h.inRange forward
    split <;> omega

theorem placed_rebind (live : σ → Snapshot) (r : Rebind) (m : Merge σ) :
    (m.rebind live r).Placed := by
  have hrange : ∀ s ∈ m.subs.map (SortedCursor.rebind live r), s.cursor.list.InRange := by
    intro s hs
    obtain ⟨s, -, rfl⟩ := List.mem_map.mp hs
    exact SortedCursor.inRange_rebind live r s
  cases r with
  | first => exact placed_selected (m := { m with subs := _ }) hrange true
  | last => exact placed_selected (m := { m with subs := _ }) hrange false
  | toward target => exact placed_selected (m := { m with subs := _ }) hrange true

theorem placed_ofCursors {subs : List (SortedCursor σ)} (h : ∀ s ∈ subs, s.cursor.list.InRange)
    (hok : ofCursors subs = .ok m) : m.Placed := by
  unfold ofCursors at hok
  split at hok
  · cases hok
  · split at hok
    · cases hok
    · cases hok
      exact placed_selected (m := ⟨_, _, none, true⟩) h true

end Merge

/-! ### Concatenations -/

/-- What stands on one side of a place of a list. -/
def Concat.aside {α : Type} (forward : Bool) (i : Nat) (l : List α) : List α :=
  if forward then l.drop (i + 1) else l.take i

namespace Concat

variable {c : Concat S}

/-- The cursors of the concatenation are placed, and the current one stands at an element. -/
structure Placed (w : Walk S) (P : S → Prop) (c : Concat S) : Prop where
  subs : ∀ s ∈ c.subs, P s
  current : ∀ i, c.current = some i → c.subValid w i = true

/-- Within how many steps a concatenation leaves its elements on a side. Where the cursors on that
side stand does not count, since they are entered at an end. -/
def toGo (w : Walk S) (count : Bool → S → Nat) (forward : Bool) (c : Concat S) : Nat :=
  match c.current with
  | none => 0
  | some i => c.subs[i]?.elim 0 (count forward) + (aside forward i (c.subs.map w.span)).sum

theorem exists_of_subValid {i : Nat} (h : c.subValid w i = true) :
    ∃ s, c.subs[i]? = some s ∧ w.isValid s = true :=
  (Option.any_eq_true _ _).mp h

theorem Placed.isValid_eq (hw : w.Ends P count) (h : c.Placed w P) :
    c.isValid = (c.element? w).isSome := by
  rw [isValid, element?]
  cases hi : c.current with
  | none => rfl
  | some i =>
      obtain ⟨s, hs, hv⟩ := exists_of_subValid (h.current i hi)
      have hP := h.subs s (List.mem_of_getElem? hs)
      rw [Option.bind_some, hs, Option.bind_some, ← hw.isValid_eq hP, hv]
      rfl

/-! #### Entering -/

/-- Entering stops at a cursor that stands at an element. -/
theorem isValid_enter {m : Step} {subs : List S} {k : Nat} (hk : (enter w m subs).2 = some k) :
    (enter w m subs).1[k]?.any w.isValid = true := by
  induction subs generalizing k with
  | nil => cases hk
  | cons s rest ih =>
      rw [enter] at hk ⊢
      split
      next hv =>
        rw [if_pos hv] at hk
        cases hk
        exact hv
      next hv =>
        rw [if_neg hv] at hk
        obtain ⟨j, hj, rfl⟩ := Option.map_eq_some_iff.mp hk
        exact ih hj

theorem length_enter (w : Walk S) (m : Step) (subs : List S) :
    (enter w m subs).1.length = subs.length := by
  have hkeeps : w.Preserves fun _ _ => True := ⟨fun _ => trivial, fun _ _ => trivial⟩
  exact (forall₂_enter hkeeps (List.forall₂_same.mpr fun _ _ => trivial) m).length_eq.symm

theorem current_of_firstFrom {i j : Nat} (hj : (c.firstFrom w i).current = some j) :
    i ≤ j ∧ (c.firstFrom w i).subValid w j = true := by
  rw [current_firstFrom] at hj
  obtain ⟨k, hk, rfl⟩ := Option.map_eq_some_iff.mp hj
  rw [enterForward_eq] at hk
  have hv := isValid_enter hk
  obtain ⟨s, hs, -⟩ := (Option.any_eq_true _ _).mp hv
  have hlt := (List.getElem?_eq_some_iff.mp hs).1
  rw [length_enter, List.length_drop] at hlt
  have hlength : (c.subs.take i).length = i := by rw [List.length_take]; omega
  refine ⟨Nat.le_add_right i k, ?_⟩
  show (c.subs.take i ++ (enterForward w (c.subs.drop i)).1)[i + k]?.any w.isValid = true
  rw [List.getElem?_append_right (by omega), hlength, Nat.add_sub_cancel_left, enterForward_eq]
  exact hv

theorem current_of_lastBefore {i j : Nat} (hj : (c.lastBefore w i).current = some j) :
    j < i ∧ (c.lastBefore w i).subValid w j = true := by
  rw [current_lastBefore] at hj
  obtain ⟨k, hk, rfl⟩ := Option.map_eq_some_iff.mp hj
  rw [enterBackward_eq] at hk ⊢
  have hv := isValid_enter hk
  obtain ⟨s, hs, -⟩ := (Option.any_eq_true _ _).mp hv
  have hlt := (List.getElem?_eq_some_iff.mp hs).1
  have hlength := length_enter w .last (c.subs.take i).reverse
  rw [List.length_reverse, List.length_take] at hlength
  refine ⟨by omega, ?_⟩
  show ((enterBackward w (c.subs.take i).reverse).1.reverse ++ c.subs.drop i)[_]?.any w.isValid =
    true
  rw [enterBackward_eq, List.getElem?_append_left (by rw [List.length_reverse]; omega),
    List.getElem?_reverse (by omega)]
  convert hv using 3
  omega

/-- What steps of cursors keep: placed ones stay placed, and the spans stay the same. -/
structure Kept (w : Walk S) (P : S → Prop) (subs subs' : List S) : Prop where
  placed : (∀ s ∈ subs, P s) → ∀ t ∈ subs', P t
  spans : subs'.map w.span = subs.map w.span

theorem kept_of_forall₂ {subs subs' : List S}
    (h : List.Forall₂ (fun s t => (P s → P t) ∧ w.span t = w.span s) subs subs') :
    Kept w P subs subs' := by
  induction h with
  | nil => exact ⟨fun h => h, rfl⟩
  | cons hst _ ih =>
      refine ⟨?_, congrArg₂ List.cons hst.2 ih.spans⟩
      intro hsubs
      obtain ⟨hs, hrest⟩ := List.forall_mem_cons.mp hsubs
      exact List.forall_mem_cons.mpr ⟨hst.1 hs, ih.placed hrest⟩

theorem kept_firstFrom (hw : w.Ends P count) (i : Nat) (c : Concat S) :
    Kept w P c.subs (c.firstFrom w i).subs :=
  kept_of_forall₂ (forall₂_firstFrom hw.preserves (List.forall₂_same.mpr fun _ _ => ⟨id, rfl⟩) i)

theorem kept_lastBefore (hw : w.Ends P count) (i : Nat) (c : Concat S) :
    Kept w P c.subs (c.lastBefore w i).subs :=
  kept_of_forall₂ (forall₂_lastBefore hw.preserves (List.forall₂_same.mpr fun _ _ => ⟨id, rfl⟩) i)

theorem placed_firstFrom (hw : w.Ends P count) (h : ∀ s ∈ c.subs, P s) (i : Nat) :
    (c.firstFrom w i).Placed w P where
  subs := (kept_firstFrom hw i c).placed h
  current _ hj := (current_of_firstFrom hj).2

theorem placed_lastBefore (hw : w.Ends P count) (h : ∀ s ∈ c.subs, P s) (i : Nat) :
    (c.lastBefore w i).Placed w P where
  subs := (kept_lastBefore hw i c).placed h
  current _ hj := (current_of_lastBefore hj).2

/-! #### Counting -/

theorem add_sum_aside {l : List Nat} {i n : Nat} (hn : l[i]? = some n) :
    n + (aside true i l).sum = (l.drop i).sum ∧
      n + (aside false i l).sum = (l.take (i + 1)).sum := by
  obtain ⟨hi, rfl⟩ := List.getElem?_eq_some_iff.mp hn
  constructor
  · rw [List.drop_eq_getElem_cons hi, List.sum_cons]
    rfl
  · rw [List.take_succ_eq_append_getElem hi, List.sum_append, List.sum_singleton, Nat.add_comm]
    rfl

/-- The current cursor and those aside of it have no more to go than their spans. -/
theorem Placed.exists_toGo_le (hw : w.Ends P count) (h : c.Placed w P) {i : Nat}
    (hi : c.current = some i) (forward : Bool) : ∃ n, (c.subs.map w.span)[i]? = some n ∧
      c.toGo w count forward ≤ n + (aside forward i (c.subs.map w.span)).sum := by
  obtain ⟨s, hs, -⟩ := exists_of_subValid (h.current i hi)
  have hle := hw.count_le (h.subs s (List.mem_of_getElem? hs)) forward
  refine ⟨w.span s, by rw [List.getElem?_map, hs]; rfl, ?_⟩
  rw [toGo, hi]
  dsimp only
  rw [hs]
  exact Nat.add_le_add_right hle _

theorem Placed.toGo_le (hw : w.Ends P count) (h : c.Placed w P) (forward : Bool) :
    c.toGo w count forward ≤ (c.subs.map w.span).sum := by
  cases hi : c.current with
  | none =>
      rw [toGo, hi]
      exact Nat.zero_le _
  | some i =>
      obtain ⟨n, hn, hle⟩ := h.exists_toGo_le hw hi forward
      refine Nat.le_trans hle ?_
      cases forward with
      | true =>
          rw [(add_sum_aside hn).1]
          exact (List.drop_sublist ..).sum_le_sum fun _ _ => Nat.zero_le _
      | false =>
          rw [(add_sum_aside hn).2]
          exact (List.take_sublist ..).sum_le_sum fun _ _ => Nat.zero_le _

theorem Placed.toGo_pos (hw : w.Ends P count) (h : c.Placed w P) (hv : c.isValid = true)
    (forward : Bool) : 0 < c.toGo w count forward := by
  obtain ⟨i, hi⟩ := Option.isSome_iff_exists.mp hv
  obtain ⟨s, hs, hvalid⟩ := exists_of_subValid (h.current i hi)
  have hpos := hw.count_pos (h.subs s (List.mem_of_getElem? hs)) hvalid forward
  rw [toGo, hi]
  dsimp only
  rw [hs]
  exact Nat.lt_of_lt_of_le hpos (Nat.le_add_right ..)

/-! #### Moving -/

/-- Leave the current cursor for the nearest one on a side that has elements. -/
def leave (w : Walk S) (forward : Bool) (i : Nat) (c : Concat S) : Concat S :=
  if forward then c.firstFrom w (i + 1) else c.lastBefore w i

/-- The current cursor takes a step. -/
def advanced (w : Walk S) (forward : Bool) (i : Nat) (c : Concat S) : Concat S :=
  { c with subs := c.subs.modify i (w.step (.ahead forward)) }

theorem step_ahead_none (forward : Bool) (hnone : c.current = none) :
    c.step w (.ahead forward) = c := by
  obtain ⟨subs, comparator, kind, current⟩ := c
  cases hnone
  cases forward <;> rfl

theorem step_ahead (forward : Bool) {i : Nat} (hi : c.current = some i) :
    c.step w (.ahead forward) =
      if (c.advanced w forward i).subValid w i then c.advanced w forward i
      else (c.advanced w forward i).leave w forward i := by
  obtain ⟨subs, comparator, kind, current⟩ := c
  cases hi
  cases forward <;> rfl

theorem kept_advanced (hw : w.Ends P count) (forward : Bool) (i : Nat) (c : Concat S) :
    Kept w P c.subs (c.advanced w forward i).subs :=
  kept_of_forall₂
    (forall₂_modify_step hw.preserves (List.forall₂_same.mpr fun _ _ => ⟨id, rfl⟩) i _)

theorem placed_leave (hw : w.Ends P count) (h : ∀ s ∈ c.subs, P s) (forward : Bool) (i : Nat) :
    (c.leave w forward i).Placed w P := by
  cases forward with
  | true => exact placed_firstFrom hw h (i + 1)
  | false => exact placed_lastBefore hw h i

/-- **Behind the current cursor there is no more to go than the spans on that side.** -/
theorem toGo_leave_le (hw : w.Ends P count) (h : ∀ s ∈ c.subs, P s) (forward : Bool) (i : Nat) :
    (c.leave w forward i).toGo w count forward ≤ (aside forward i (c.subs.map w.span)).sum := by
  cases hj : (c.leave w forward i).current with
  | none =>
      rw [toGo, hj]
      exact Nat.zero_le _
  | some j =>
      obtain ⟨n, hn, hle⟩ := (placed_leave hw h forward i).exists_toGo_le hw hj forward
      refine Nat.le_trans hle ?_
      cases forward with
      | true =>
          rw [(add_sum_aside hn).1]
          rw [show (c.leave w true i).subs.map w.span = _ from (kept_firstFrom hw _ c).spans]
          have hlt : i + 1 ≤ j := (current_of_firstFrom hj).1
          exact (List.drop_sublist_drop_left _ hlt).sum_le_sum fun _ _ => Nat.zero_le _
      | false =>
          rw [(add_sum_aside hn).2]
          rw [show (c.leave w false i).subs.map w.span = _ from (kept_lastBefore hw _ c).spans]
          have hlt : j + 1 ≤ i := (current_of_lastBefore hj).1
          exact (List.take_sublist_take_left hlt).sum_le_sum fun _ _ => Nat.zero_le _

theorem Placed.step (hw : w.Ends P count) (h : c.Placed w P) (m : Step) :
    (c.step w m).Placed w P := by
  have hahead : ∀ forward, (c.step w (.ahead forward)).Placed w P := by
    intro forward
    cases hi : c.current with
    | none => rwa [step_ahead_none forward hi]
    | some i =>
        have hsubs := (kept_advanced hw forward i c).placed h.subs
        rw [step_ahead forward hi]
        split
        next hv =>
          refine ⟨hsubs, ?_⟩
          intro j hj
          cases hi.symm.trans hj
          exact hv
        next => exact placed_leave hw hsubs forward i
  cases m with
  | first => exact placed_firstFrom hw h.subs 0
  | last => exact placed_lastBefore hw h.subs _
  | next => exact hahead true
  | previous => exact hahead false

/-- **A step of a concatenation brings the end nearer**, also where it leaves its current cursor. -/
theorem Placed.toGo_step (hw : w.Ends P count) (h : c.Placed w P) (forward : Bool) :
    (c.step w (.ahead forward)).toGo w count forward ≤ c.toGo w count forward - 1 := by
  cases hi : c.current with
  | none =>
      rw [step_ahead_none forward hi, toGo, hi]
      exact Nat.zero_le _
  | some i =>
      obtain ⟨s, hs, hvalid⟩ := exists_of_subValid (h.current i hi)
      have hP := h.subs s (List.mem_of_getElem? hs)
      have hpos := hw.count_pos hP hvalid forward
      have hstep := hw.count_step hP forward
      obtain ⟨hkeep, hspans⟩ := kept_advanced hw forward i c
      have hgo : c.toGo w count forward =
          count forward s + (aside forward i (c.subs.map w.span)).sum := by
        rw [toGo, hi]
        dsimp only
        rw [hs]
        rfl
      rw [step_ahead forward hi, hgo]
      split
      next =>
        have hs' : (c.advanced w forward i).subs[i]? = some (w.step (.ahead forward) s) := by
          rw [advanced, List.getElem?_modify_eq, hs]
          rfl
        rw [toGo, show (c.advanced w forward i).current = some i from hi]
        dsimp only
        rw [hs', hspans, Option.elim_some]
        omega
      next =>
        have hle := toGo_leave_le hw (hkeep h.subs) forward i
        rw [hspans] at hle
        omega

/-! #### Building and rebinding -/

theorem placed_ofCursors (hw : w.Ends P count) {subs : List S} (h : ∀ s ∈ subs, P s)
    (comparator : Comparator) (kind : IndexKind) : (ofCursors w subs comparator kind).Placed w P :=
  placed_firstFrom hw (c := ⟨subs, comparator, kind, none⟩) h 0

/-- A match is found at a cursor that stands at an element. -/
theorem isValid_findMatch {rebind : S → S} {isMatch : FeatureStructure → Bool} {subs : List S}
    {k : Nat} (hk : (findMatch w rebind isMatch subs).2 = some k) :
    (findMatch w rebind isMatch subs).1[k]?.any w.isValid = true := by
  induction subs generalizing k with
  | nil => cases hk
  | cons s rest ih =>
      rw [findMatch] at hk ⊢
      split
      next hv =>
        rw [if_pos hv] at hk
        cases hk
        exact (Bool.and_eq_true_iff.mp hv).1
      next hv =>
        rw [if_neg hv] at hk
        obtain ⟨j, hj, rfl⟩ := Option.map_eq_some_iff.mp hk
        exact ih hj

/-- **A rebinding places a concatenation** whose cursors it places. -/
theorem placed_rebind (hw : w.Ends P count) {rebindSub : Rebind → S → S} (h : ∀ s ∈ c.subs, P s)
    (r : Rebind) (hnew : ∀ s ∈ c.subs, P (rebindSub r s)) :
    (c.rebind w rebindSub r).Placed w P := by
  have hmap : ∀ t ∈ c.subs.map (rebindSub r), P t := List.forall_mem_map.mpr hnew
  cases r with
  | first => exact placed_firstFrom hw (c := { c with subs := _ }) hmap 0
  | last => exact placed_lastBefore hw (c := { c with subs := _ }) hmap _
  | toward target =>
      refine ⟨?_, fun i hi => isValid_findMatch hi⟩
      obtain ⟨k, hsubs, -⟩ := findMatch_eq w (rebindSub (.toward target)) (c.isMatch target) c.subs
      intro t ht
      rw [show (c.rebind w rebindSub (.toward target)).subs = _ from hsubs] at ht
      rcases List.mem_append.mp ht with ht | ht
      · obtain ⟨s, hs, rfl⟩ := List.mem_map.mp ht
        exact hnew s (List.mem_of_mem_take hs)
      · exact h t (List.mem_of_mem_drop ht)

end Concat
end FeatureIndex
