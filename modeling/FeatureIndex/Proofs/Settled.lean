import FeatureIndex.Proofs.Guarded

/-!
# Settled iterators

An iterator is settled when every filter in it stands at an element that its condition accepts, or
at none (`Iter.Settled`). Every iterator that has come about is (`Made.settled`): a filter goes on
past rejected elements whenever it is put somewhere or moved, and its base is not moved by others.

So an iterator stands at an element of what it is bound to, conditions included, wherever its
cursors may be (`Made.mem_bound`). Nothing is asked of the contents of the stores.
-/

namespace FeatureIndex

/-- A concatenation is placed by two properties of its cursors if it is placed by one and all of
them have the other. -/
theorem Concat.placed_and_iff {S : Type} {w : Walk S} {P Q : S → Prop} {c : Concat S} :
    c.Placed w (fun s => P s ∧ Q s) ↔ c.Placed w P ∧ ∀ s ∈ c.subs, Q s := by
  constructor
  · intro h
    exact ⟨⟨fun s hs => (h.subs s hs).1, h.current⟩, fun s hs => (h.subs s hs).2⟩
  · rintro ⟨h, hQ⟩
    exact ⟨fun s hs => ⟨h.subs s hs, hQ s hs⟩, h.current⟩

namespace Iter

variable {σ τ : Type} {it : Iter σ} {d : Nat} {fs : FeatureStructure}

/-! ### Settled iterators -/

mutual

/-- Every filter in the iterator stands at an accepted element, or at none. -/
def Settled : Iter σ → Prop
  | sorted _ | bag _ | merge _ => True
  | concat ⟨subs, _, _, _⟩ => SettledAll subs
  | filtered ⟨base, accepts⟩ => Settled base ∧ ∀ fs, base.get = .ok fs → accepts fs = true

/-- Some iterators are settled. -/
def SettledAll : List (Iter σ) → Prop
  | [] => True
  | it :: rest => Settled it ∧ SettledAll rest

end

theorem settledAll_iff {subs : List (Iter σ)} : SettledAll subs ↔ ∀ it ∈ subs, it.Settled := by
  induction subs with
  | nil => exact ⟨nofun, fun _ => trivial⟩
  | cons it rest ih => rw [SettledAll, ih, List.forall_mem_cons]

/-- Placed and settled iterators within reach of a walk. -/
def settledTo (d : Nat) (it : Iter σ) : Prop := placedTo d it ∧ it.Settled

theorem settledTo_concat {c : Concat (Iter σ)} :
    settledTo (d + 1) (concat c) ↔ c.Placed (walkTo d) (settledTo d) := by
  have hplaced : placedTo (d + 1) (concat c) ↔ c.Placed (walkTo d) (placedTo d) := placedTo_concat
  obtain ⟨subs, comparator, kind, current⟩ := c
  exact (and_congr hplaced settledAll_iff).trans Concat.placed_and_iff.symm

theorem settledTo_filtered {f : Filtered (Iter σ)} :
    settledTo (d + 1) (filtered f) ↔
      settledTo d f.base ∧ ∀ fs, f.base.get = .ok fs → f.accepts fs = true := by
  have hplaced : placedTo (d + 1) (filtered f) ↔ placedTo d f.base := placedTo_filtered
  obtain ⟨base, accepts⟩ := f
  exact (and_congr_left fun _ => hplaced).trans and_assoc.symm

/-- **A filter settles** on a base that it may move. -/
theorem settledTo_settle (hw : (walkTo d).Ends (settledTo (σ := σ) d) (toGoTo d))
    {f : Filtered (Iter σ)} (h : settledTo d f.base) (forward : Bool) :
    settledTo (d + 1) (filtered (f.settle (walkTo d) (.ahead forward))) := by
  have hsettled := (Filtered.placed_settle hw h forward).1
  refine settledTo_filtered.mpr ⟨hsettled, ?_⟩
  intro fs hget
  obtain ⟨hv, he⟩ := get_eq_ok_iff.mp hget
  obtain ⟨hvalid, helement, -⟩ := inStep_walkTo_walk hsettled.1.1
  exact (Filtered.skips_settle hw h forward).accepts (hvalid.trans hv) (helement.trans he)

/-- **Settled iterators up to any depth are in a walk that ends.** -/
theorem ends_walkTo_settled (d : Nat) : (walkTo d).Ends (settledTo (σ := σ) d) (toGoTo d) := by
  induction d with
  | zero => exact (ends_walkTo 0).restrict fun _ h => absurd h not_placedTo_zero
  | succ d ih =>
      refine (ends_walkTo (d + 1)).restrict fun it h hs m => ?_
      cases it with
      | sorted c => trivial
      | bag c => trivial
      | merge m' => trivial
      | concat c => exact (settledTo_concat.mpr ((settledTo_concat.mp ⟨h, hs⟩).step ih m)).2
      | filtered f =>
          obtain ⟨forward, honward⟩ := m.exists_onward
          have hbase := ih.step (settledTo_filtered.mp ⟨h, hs⟩).1 m
          show Settled (filtered (f.step (walkTo d) m))
          rw [Filtered.step, honward]
          exact (settledTo_settle ih (f := { f with base := _ }) hbase forward).2

/-- A rebinding settles every filter anew, or leaves it where it is. -/
theorem settledTo_rebindTo (live : σ → Snapshot) {d : Nat} {it : Iter σ} (h : settledTo d it)
    (r : Rebind) : settledTo d (rebindTo live d r it) := by
  induction d generalizing it r with
  | zero => exact absurd h.1 not_placedTo_zero
  | succ d ih =>
      cases it with
      | sorted c => exact ⟨placedTo_rebindTo live h.1 r, trivial⟩
      | bag c => exact ⟨placedTo_rebindTo live h.1 r, trivial⟩
      | merge m => exact ⟨placedTo_rebindTo live h.1 r, trivial⟩
      | concat c =>
          have hsubs := (settledTo_concat.mp h).subs
          refine settledTo_concat.mpr ?_
          apply Concat.placed_rebind (ends_walkTo_settled d) hsubs r
          intro s hs
          exact ih (hsubs s hs) r
      | filtered f =>
          obtain ⟨forward, honward⟩ := r.exists_onward
          have hbase := ih (settledTo_filtered.mp h).1 r
          show settledTo (d + 1) (filtered (f.rebind (walkTo d) (rebindTo live d) r))
          rw [Filtered.rebind, honward]
          exact settledTo_settle (ends_walkTo_settled d) (f := { f with base := _ }) hbase forward

theorem Placed.settledTo (h : it.Placed) (hs : it.Settled) : settledTo it.depth it :=
  ⟨h.to_self, hs⟩

theorem settled_filter (h : it.Placed) (hs : it.Settled) (accepts : FeatureStructure → Bool) :
    (it.filter accepts).Settled :=
  (settledTo_settle (ends_walkTo_settled it.depth) (f := ⟨it, accepts⟩) (h.settledTo hs) true).2

theorem settled_ofList {subs : List (Iter σ)} (h : ∀ s ∈ subs, s.Placed ∧ s.Settled)
    (comparator : Comparator) (kind : IndexKind) : (ofList subs comparator kind).Settled := by
  refine (settledTo_concat (d := depthAll subs).mpr ?_).2
  apply Concat.placed_ofCursors (ends_walkTo_settled (depthAll subs))
  intro s hs
  exact ⟨⟨depth_le_depthAll hs, (h s hs).1⟩, (h s hs).2⟩

theorem settled_ofSorted {subs : List (SortedCursor σ)} (hok : ofSorted subs = .ok it) :
    it.Settled := by
  obtain ⟨m, -, hm⟩ := bind_eq_ok.mp hok
  cases hm
  trivial

theorem Settled.parts (h : it.Settled) : ∀ s ∈ it.parts, s.Settled := by
  cases it with
  | sorted c => exact nofun
  | bag c => exact nofun
  | merge m =>
      intro s hs
      obtain ⟨c, -, rfl⟩ := List.mem_map.mp hs
      trivial
  | concat c =>
      obtain ⟨subs, comparator, kind, current⟩ := c
      exact settledAll_iff.mp h
  | filtered f =>
      obtain ⟨base, accepts⟩ := f
      exact List.forall_mem_singleton.mpr h.1

/-! ### Other addresses -/

theorem element?_map (f : σ → τ) (d : Nat) (it : Iter σ) :
    (walkTo d).element? (it.map f) = (walkTo d).element? it := by
  induction d generalizing it with
  | zero => rfl
  | succ d ih =>
      cases it with
      | sorted c => rfl
      | bag c => rfl
      | merge m =>
          show m.current.bind _ = m.current.bind _
          simp only [List.getElem?_map, Option.bind_map]
          rfl
      | concat c =>
          obtain ⟨subs, comparator, kind, current⟩ := c
          show current.bind _ = current.bind _
          simp only [mapAll_eq, List.getElem?_map, Option.bind_map, Function.comp_def, ih]
      | filtered g =>
          obtain ⟨base, accepts⟩ := g
          exact ih base

theorem get_map (f : σ → τ) (it : Iter σ) : (it.map f).get = it.get := by
  have hdepth := Nat.le_max_left it.depth (it.map f).depth
  have hdepth' := Nat.le_max_right it.depth (it.map f).depth
  have helement : (it.map f).element? = it.element? := by
    rw [← (inStep_walkTo_walk hdepth).2.1, ← (inStep_walkTo_walk hdepth').2.1]
    exact element?_map f _ it
  rw [get, get, isValid_map, helement]

mutual

/-- Whether a filter is settled does not depend on the addresses of its stores. -/
theorem settled_map (f : σ → τ) (it : Iter σ) (h : it.Settled) : (it.map f).Settled := by
  cases it with
  | sorted c => trivial
  | bag c => trivial
  | merge m => trivial
  | concat c =>
      obtain ⟨subs, comparator, kind, current⟩ := c
      exact settledAll_map f subs h
  | filtered g =>
      obtain ⟨base, accepts⟩ := g
      refine ⟨settled_map f base h.1, ?_⟩
      intro fs hget
      rw [get_map] at hget
      exact h.2 fs hget

theorem settledAll_map (f : σ → τ) (subs : List (Iter σ)) (h : SettledAll subs) :
    SettledAll (mapAll f subs) := by
  cases subs with
  | nil => exact trivial
  | cons it rest => exact ⟨settled_map f it h.1, settledAll_map f rest h.2⟩

end

/-! ### What an iterator stands at -/

/-- **However an iterator has come about, it is settled.** -/
theorem Made.settled (h : it.Made) : it.Settled := by
  induction h with
  | sorted source comparator now => trivial
  | bag source now => trivial
  | merge _ hok => exact settled_ofSorted hok
  | concat hsubs comparator kind ih =>
      exact settled_ofList (fun s hs => ⟨(hsubs s hs).placed, ih s hs⟩) comparator kind
  | filter hit accepts ih => exact settled_filter hit.placed ih accepts
  | step hit m ih => exact ((ends_walkTo_settled _).step (hit.placed.settledTo ih) m).2
  | rebind hit live r ih => exact (settledTo_rebindTo live (hit.placed.settledTo ih) r).2
  | part _ hs ih => exact ih.parts _ hs
  | map _ f ih => exact settled_map f _ ih

/-- Settled iterators up to a depth stand at elements of what they are bound to. -/
theorem mem_bound_of_element? (h : settledTo d it) (hv : (walkTo d).isValid it = true)
    (he : (walkTo d).element? it = some fs) : fs ∈ it.bound := by
  induction d generalizing it with
  | zero => cases he
  | succ d ih =>
      cases it with
      | sorted c => exact Cursor.mem_of_element? he
      | bag c => exact Cursor.mem_of_element? he
      | merge m =>
          obtain ⟨i, -, hi⟩ := Option.bind_eq_some_iff.mp he
          obtain ⟨c, hc, hfs⟩ := Option.bind_eq_some_iff.mp hi
          have hview := List.mem_map_of_mem (f := fun c => c.cursor.view.elements)
            (List.mem_of_getElem? hc)
          exact mem_union.mpr ⟨_, hview, Cursor.mem_of_element? hfs⟩
      | concat c =>
          have hplaced := settledTo_concat.mp h
          obtain ⟨i, hi, hs⟩ := Option.bind_eq_some_iff.mp he
          obtain ⟨s, hs, hfs⟩ := Option.bind_eq_some_iff.mp hs
          have hmem := List.mem_of_getElem? hs
          have hvalid : (walkTo d).isValid s = true := by
            have hcurrent := hplaced.current i hi
            rwa [Concat.subValid, hs] at hcurrent
          have hbound := ih (hplaced.subs s hmem) hvalid hfs
          obtain ⟨subs, comparator, kind, current⟩ := c
          rw [bound, boundAll_eq, List.mem_flatMap]
          exact ⟨s, hmem, hbound⟩
      | filtered f =>
          obtain ⟨hbase, haccepts⟩ := settledTo_filtered.mp h
          obtain ⟨hvalid, helement, -⟩ := inStep_walkTo_walk hbase.1.1
          have hget := get_eq_ok_iff.mpr ⟨hvalid.symm.trans hv, helement.symm.trans he⟩
          exact List.mem_filter.mpr ⟨ih hbase hv he, haccepts fs hget⟩

/-- **An iterator stands at an element of what it is bound to**, however it has come there. -/
theorem Made.mem_bound (h : it.Made) (hget : it.get = .ok fs) : fs ∈ it.bound := by
  obtain ⟨hv, he⟩ := get_eq_ok_iff.mp hget
  exact mem_bound_of_element? (h.placed.settledTo h.settled) hv he

end Iter
end FeatureIndex
