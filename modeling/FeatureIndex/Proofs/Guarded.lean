import FeatureIndex.Proofs.Index
import FeatureIndex.Proofs.IterLockstep
import FeatureIndex.Proofs.Placing
import FeatureIndex.Proofs.Walking
import FeatureIndex.Repository

/-!
# Guarded iterators

`Iter.Made` tells how iterators come about: over single stores, as merges, concatenations and
filters of others, by steps, and by rebindings to whatever the stores hold at the time. Nothing is
asked of the contents of the stores; the cursors of a merge may stand anywhere, and may be the same
one twice.

Every iterator that has come about this way is placed (`Made.placed`): it is valid only where it
stands at an element, and steps to one side leave its elements in the end. So no loop over iterators
ever looks at an element that is not there, and each comes to an end (`Made.guarded_spec`).
-/

namespace FeatureIndex

namespace Iter

variable {σ τ : Type} {it : Iter σ} {d : Nat}

/-! ### Placed iterators -/

mutual

/-- The cursors of the iterator are in range, and where a concatenation or a merge has a current
one, that stands at an element. -/
def Placed : Iter σ → Prop
  | sorted c => c.cursor.list.InRange
  | bag c => c.cursor.list.InRange
  | merge m => m.Placed
  | concat ⟨subs, _, _, current⟩ =>
    PlacedAll subs ∧ ∀ i, current = some i → subs[i]?.any isValid = true
  | filtered ⟨base, _⟩ => Placed base

/-- Some iterators are placed. -/
def PlacedAll : List (Iter σ) → Prop
  | [] => True
  | it :: rest => Placed it ∧ PlacedAll rest

end

theorem placedAll_iff {subs : List (Iter σ)} : PlacedAll subs ↔ ∀ it ∈ subs, it.Placed := by
  induction subs with
  | nil => exact ⟨nofun, fun _ => trivial⟩
  | cons it rest ih => rw [PlacedAll, ih, List.forall_mem_cons]

/-- Placed iterators within reach of a walk. -/
def placedTo (d : Nat) (it : Iter σ) : Prop := it.depth ≤ d ∧ it.Placed

/-- Within how many steps a walk up to a depth leaves the elements of an iterator on a side. -/
def toGoTo : Nat → Bool → Iter σ → Nat
  | 0, _, _ => 0
  | depth + 1, forward, it =>
    match it with
    | sorted c => Filtered.toPass forward c.cursor.list
    | bag c => Filtered.toPass forward c.cursor.list
    | merge m => m.toGo forward
    | concat c => c.toGo (walkTo depth) (toGoTo depth) forward
    | filtered f => toGoTo depth forward f.base

theorem not_placedTo_zero : ¬ placedTo 0 it := fun h => Nat.not_le.mpr it.depth_pos h.1

theorem depth_concat_le_iff {c : Concat (Iter σ)} :
    (concat c).depth ≤ d + 1 ↔ ∀ s ∈ c.subs, s.depth ≤ d := by
  obtain ⟨subs, comparator, kind, current⟩ := c
  constructor
  · intro h s hs
    exact Nat.le_trans (depth_le_depthAll hs) (Nat.le_of_succ_le_succ h)
  · intro h
    exact Nat.succ_le_succ (depthAll_le h)

/-- A concatenation is placed where the walk of its cursors sees it so. -/
theorem placedTo_concat {c : Concat (Iter σ)} :
    placedTo (d + 1) (concat c) ↔ c.Placed (walkTo d) (placedTo d) := by
  obtain ⟨subs, comparator, kind, current⟩ := c
  have hvalid : (∀ s ∈ subs, s.depth ≤ d) → ∀ i : Nat,
      subs[i]?.any (walkTo d).isValid = subs[i]?.any isValid := by
    intro hdepth i
    cases hs : subs[i]? with
    | none => rfl
    | some s => exact (inStep_walkTo_walk (hdepth s (List.mem_of_getElem? hs))).1
  rw [placedTo, depth_concat_le_iff, Placed, placedAll_iff]
  constructor
  · rintro ⟨hdepth, hplaced, hcurrent⟩
    refine ⟨fun s hs => ⟨hdepth s hs, hplaced s hs⟩, ?_⟩
    intro i hi
    exact (hvalid hdepth i).trans (hcurrent i hi)
  · intro h
    have hdepth : ∀ s ∈ subs, s.depth ≤ d := fun s hs => (h.subs s hs).1
    refine ⟨hdepth, fun s hs => (h.subs s hs).2, ?_⟩
    intro i hi
    exact (hvalid hdepth i).symm.trans (h.current i hi)

theorem placedTo_filtered {f : Filtered (Iter σ)} :
    placedTo (d + 1) (filtered f) ↔ placedTo d f.base := by
  obtain ⟨base, accepts⟩ := f
  rw [placedTo, placedTo, depth, Placed, Nat.add_le_add_iff_right]

/-! ### Walks of placed iterators end -/

theorem span_walkTo_le (d : Nat) (it : Iter σ) : (walkTo d).span it ≤ it.span := by
  cases d with
  | zero => exact Nat.zero_le _
  | succ d => exact Nat.le_refl _

theorem span_walkTo_step (d : Nat) (m : Step) (it : Iter σ) :
    (walkTo d).span ((walkTo d).step m it) = (walkTo d).span it := by
  cases d with
  | zero => rfl
  | succ d =>
      have hleaves : ((walkTo (d + 1)).step m it).leaves = it.leaves :=
        leaves_eq_of_still ((preserves_walkTo (fun _ v => v) (d + 1)).step rfl m)
      show span _ = span it
      rw [span, span, hleaves]

/-- The span of a concatenation is that of its iterators together. -/
theorem sum_span_le (d : Nat) (c : Concat (Iter σ)) :
    (c.subs.map (walkTo d).span).sum ≤ (concat c).span := by
  obtain ⟨subs, comparator, kind, current⟩ := c
  have hsum : (concat ⟨subs, comparator, kind, current⟩).span = (subs.map span).sum := by
    induction subs with
    | nil => rfl
    | cons s rest ih =>
        have hleaves : (concat ⟨s :: rest, comparator, kind, current⟩).leaves =
            s.leaves ++ (concat ⟨rest, comparator, kind, current⟩).leaves := rfl
        rw [List.map_cons, List.sum_cons, ← ih, span, span, span, hleaves, List.map_append,
          totalSize_append, List.length_append]
        omega
  rw [hsum]
  exact List.sum_le_sum fun s _ => span_walkTo_le d s

theorem toGo_merge_le {m : Merge σ} (h : m.Placed) (forward : Bool) :
    m.toGo forward ≤ (merge m).span := by
  have hspan : (merge m).span = (m.subs.map fun s => s.cursor.view.size).sum + m.subs.length := by
    rw [span, totalSize_eq, leaves]
    simp only [List.map_map, List.length_map]
    rfl
  rw [hspan]
  exact h.toGo_le forward

/-- **Iterators up to any depth are in a walk that ends**, wherever their cursors stand. -/
theorem ends_walkTo (d : Nat) : (walkTo d).Ends (placedTo (σ := σ) d) (toGoTo d) := by
  induction d with
  | zero =>
      refine ⟨?_, ?_, span_walkTo_step 0, ?_, ?_, ?_⟩ <;>
        exact fun h => absurd h not_placedTo_zero
  | succ d ih =>
      -- each kind of cursor is in such a walk, given that the cursors below it are
      refine ⟨?_, ?_, span_walkTo_step (d + 1), ?_, ?_, ?_⟩
      · intro it h
        cases it with
        | sorted c => rfl
        | bag c => rfl
        | merge m => exact Merge.Placed.isValid_eq h.2
        | concat c => exact (placedTo_concat.mp h).isValid_eq ih
        | filtered f => exact ih.isValid_eq (placedTo_filtered.mp h)
      · intro it h m
        cases it with
        | sorted c => exact ⟨h.1, Cursor.inRange_step h.2 m⟩
        | bag c => exact ⟨h.1, Cursor.inRange_step h.2 m⟩
        | merge m' => exact ⟨h.1, Merge.Placed.step h.2 m⟩
        | concat c => exact placedTo_concat.mpr ((placedTo_concat.mp h).step ih m)
        | filtered f =>
            obtain ⟨forward, honward⟩ := m.exists_onward
            have hbase := ih.step (placedTo_filtered.mp h) m
            refine placedTo_filtered.mpr ?_
            rw [Filtered.step, honward]
            exact (Filtered.placed_settle ih (f := { f with base := _ }) hbase forward).1
      · intro it h forward
        cases it with
        | sorted c => exact Nat.le_trans (Filtered.toPass_le h.2 forward) (Nat.le_add_right ..)
        | bag c => exact Nat.le_trans (Filtered.toPass_le h.2 forward) (Nat.le_add_right ..)
        | merge m => exact toGo_merge_le h.2 forward
        | concat c =>
            exact Nat.le_trans ((placedTo_concat.mp h).toGo_le ih forward) (sum_span_le d c)
        | filtered f =>
            have hbase := ih.count_le (placedTo_filtered.mp h) forward
            exact Nat.le_trans hbase (span_walkTo_le d f.base)
      · intro it h hv forward
        cases it with
        | sorted c => exact Cursor.toGo_pos h.2 hv forward
        | bag c => exact Cursor.toGo_pos h.2 hv forward
        | merge m => exact Merge.Placed.toGo_pos h.2 hv forward
        | concat c => exact (placedTo_concat.mp h).toGo_pos ih hv forward
        | filtered f => exact ih.count_pos (placedTo_filtered.mp h) hv forward
      · intro it h forward
        cases it with
        | sorted c => exact Cursor.toGo_step h.2 forward
        | bag c => exact Cursor.toGo_step h.2 forward
        | merge m => exact Merge.Placed.toGo_step h.2 forward
        | concat c => exact (placedTo_concat.mp h).toGo_step ih forward
        | filtered f => exact Filtered.toGo_step ih (placedTo_filtered.mp h) forward

/-! ### Placed iterators stay placed -/

theorem Placed.to_self (h : it.Placed) : placedTo it.depth it := ⟨Nat.le_refl _, h⟩

theorem Placed.step (h : it.Placed) (m : Step) : (it.step m).Placed :=
  ((ends_walkTo it.depth).step h.to_self m).2

/-- A rebinding places every cursor anew, or leaves it where it is. -/
theorem placedTo_rebindTo (live : σ → Snapshot) {d : Nat} {it : Iter σ} (h : placedTo d it)
    (r : Rebind) : placedTo d (rebindTo live d r it) := by
  induction d generalizing it r with
  | zero => exact absurd h not_placedTo_zero
  | succ d ih =>
      cases it with
      | sorted c => exact ⟨h.1, SortedCursor.inRange_rebind live r c⟩
      | bag c => exact ⟨h.1, BagCursor.inRange_rebind live r c⟩
      | merge m => exact ⟨h.1, Merge.placed_rebind live r m⟩
      | concat c =>
          have hsubs := (placedTo_concat.mp h).subs
          refine placedTo_concat.mpr ?_
          apply Concat.placed_rebind (ends_walkTo d) hsubs r
          intro s hs
          exact ih (hsubs s hs) r
      | filtered f =>
          obtain ⟨forward, honward⟩ := r.exists_onward
          have hbase := ih (placedTo_filtered.mp h) r
          refine placedTo_filtered.mpr ?_
          rw [Filtered.rebind, honward]
          exact (Filtered.placed_settle (ends_walkTo d) (f := { f with base := _ }) hbase forward).1

theorem Placed.rebind (h : it.Placed) (live : σ → Snapshot) (r : Rebind) :
    (it.rebind live r).Placed :=
  (placedTo_rebindTo live h.to_self r).2

theorem Placed.filter (h : it.Placed) (accepts : FeatureStructure → Bool) :
    (it.filter accepts).Placed :=
  (placedTo_filtered.mpr (Filtered.placed_settle (ends_walkTo it.depth) (f := ⟨it, accepts⟩)
    h.to_self true).1).2

theorem placed_ofList {subs : List (Iter σ)} (h : ∀ s ∈ subs, s.Placed) (comparator : Comparator)
    (kind : IndexKind) : (ofList subs comparator kind).Placed := by
  refine (placedTo_concat (d := depthAll subs).mpr ?_).2
  apply Concat.placed_ofCursors (ends_walkTo (depthAll subs))
  intro s hs
  exact ⟨depth_le_depthAll hs, h s hs⟩

theorem placed_ofSorted {subs : List (SortedCursor σ)} (h : ∀ s ∈ subs, (sorted s).Placed)
    (hok : ofSorted subs = .ok it) : it.Placed := by
  rw [ofSorted] at hok
  cases hm : Merge.ofCursors subs with
  | error e =>
      rw [hm] at hok
      cases hok
  | ok m =>
      rw [hm] at hok
      cases hok
      exact Merge.placed_ofCursors h hm

/-- The iterators that an iterator is made of. -/
def parts : Iter σ → List (Iter σ)
  | sorted _ | bag _ => []
  | merge m => m.subs.map sorted
  | concat c => c.subs
  | filtered f => [f.base]

theorem Placed.parts (h : it.Placed) : ∀ s ∈ it.parts, s.Placed := by
  cases it with
  | sorted c => exact nofun
  | bag c => exact nofun
  | merge m =>
      intro s hs
      obtain ⟨c, hc, rfl⟩ := List.mem_map.mp hs
      exact Merge.Placed.inRange h c hc
  | concat c =>
      obtain ⟨subs, comparator, kind, current⟩ := c
      exact placedAll_iff.mp h.1
  | filtered f =>
      obtain ⟨base, accepts⟩ := f
      exact List.forall_mem_singleton.mpr h

theorem isValid_map (f : σ → τ) : ∀ it : Iter σ, (it.map f).isValid = it.isValid
  | sorted _ | bag _ | merge _ => rfl
  | concat ⟨_, _, _, _⟩ => rfl
  | filtered ⟨base, _⟩ => isValid_map f base

mutual

/-- Where an iterator stands does not depend on the addresses of its stores. -/
theorem placed_map (f : σ → τ) (it : Iter σ) (h : it.Placed) : (it.map f).Placed := by
  cases it with
  | sorted c => exact h
  | bag c => exact h
  | merge m =>
      refine ⟨List.forall_mem_map.mpr (Merge.Placed.inRange h), ?_⟩
      intro i hi
      obtain ⟨s, x, hs, hx⟩ := Merge.Placed.current h i hi
      exact ⟨_, x, by rw [List.getElem?_map, hs]; rfl, hx⟩
  | concat c =>
      obtain ⟨subs, comparator, kind, current⟩ := c
      refine ⟨placedAll_map f subs h.1, ?_⟩
      intro i hi
      rw [mapAll_eq, List.getElem?_map, Option.any_map]
      simp only [isValid_map]
      exact h.2 i hi
  | filtered g =>
      obtain ⟨base, accepts⟩ := g
      exact placed_map f base h

theorem placedAll_map (f : σ → τ) (subs : List (Iter σ)) (h : PlacedAll subs) :
    PlacedAll (mapAll f subs) := by
  cases subs with
  | nil => exact trivial
  | cons it rest => exact ⟨placed_map f it h.1, placedAll_map f rest h.2⟩

end

/-! ### How iterators come about -/

/-- Iterators as they come about: over single stores, merged, concatenated and filtered, moved, and
rebound to anything that the stores may hold by then. What an iterator is made of has come about
too, as it stands now. -/
inductive Made : ∀ {σ : Type}, Iter σ → Prop
  | sorted {σ : Type} (source : σ) (comparator : Comparator) (now : Snapshot) :
      Made (sorted (.start source comparator now))
  | bag {σ : Type} (source : σ) (now : Snapshot) : Made (bag (.start source now))
  | merge {σ : Type} {subs : List (SortedCursor σ)} {it : Iter σ}
      (h : ∀ s ∈ subs, Made (Iter.sorted s)) (hok : ofSorted subs = .ok it) : Made it
  | concat {σ : Type} {subs : List (Iter σ)} (h : ∀ s ∈ subs, Made s) (comparator : Comparator)
      (kind : IndexKind) : Made (ofList subs comparator kind)
  | filter {σ : Type} {it : Iter σ} (h : Made it) (accepts : FeatureStructure → Bool) :
      Made (it.filter accepts)
  | step {σ : Type} {it : Iter σ} (h : Made it) (m : Step) : Made (it.step m)
  | rebind {σ : Type} {it : Iter σ} (h : Made it) (live : σ → Snapshot) (r : Rebind) :
      Made (it.rebind live r)
  | part {σ : Type} {it s : Iter σ} (h : Made it) (hs : s ∈ it.parts) : Made s
  | map {σ τ : Type} {it : Iter σ} (h : Made it) (f : σ → τ) : Made (it.map f)

theorem Made.foldl_step (h : it.Made) (ms : List Step) :
    (ms.foldl (fun it m => it.step m) it).Made :=
  List.foldlRecOn ms _ h fun _ hs m _ => hs.step m

/-- **However an iterator has come about, it is placed.** -/
theorem Made.placed (h : it.Made) : it.Placed := by
  induction h with
  | sorted source comparator now => exact ListCursor.inRange_seek ⟨now.elements, none⟩ _
  | bag source now => exact ListCursor.inRange_seek ⟨now.elements, none⟩ _
  | merge _ hok ih => exact placed_ofSorted ih hok
  | concat _ comparator kind ih => exact placed_ofList ih comparator kind
  | filter _ accepts ih => exact ih.filter accepts
  | step _ m ih => exact ih.step m
  | rebind _ live r ih => exact ih.rebind live r
  | part _ hs ih => exact ih.parts _ hs
  | map _ f ih => exact placed_map f _ ih

end Iter

/-! ### Iterators over indexes -/

theorem Index.made_leafIterator (t : TypeCode) (leaf : Leaf) : (leafIterator t leaf).Made := by
  cases leaf with
  | ordered set => exact .sorted t set.comparator set.snapshot
  | bag b => exact .bag t b.snapshot

/-- **What an index hands out has come about this way.** -/
theorem Index.made_iterate {ix : Index} {t : TypeCode} {withSubtypes : Bool} {it : Iter TypeCode}
    (hok : ix.iterate t withSubtypes = .ok it) : it.Made := by
  rw [iterate] at hok
  obtain ⟨leaves, -, hok⟩ := bind_eq_ok.mp hok
  split at hok
  next l =>
    cases hok
    exact made_leafIterator l.1 l.2
  next =>
    split at hok
    next =>
      refine .merge ?_ hok
      intro s hs
      obtain ⟨l, -, hl⟩ := List.mem_filterMap.mp hs
      unfold sortedCursor? at hl
      split at hl
      next set _ =>
        cases hl
        exact .sorted l.1 set.comparator set.snapshot
      next => cases hl
    all_goals
      cases hok
      refine .concat ?_ ix.definition.comparator ix.kind
      intro s hs
      obtain ⟨l, -, rfl⟩ := List.mem_map.mp hs
      exact made_leafIterator l.1 l.2

/-- So has what a repository hands out, over an index or over everything. -/
theorem Repository.made_iterate {r : Repository} {label : String} {t : TypeCode}
    {withSubtypes : Bool} {it : Iter Address}
    (hok : r.iterate label t withSubtypes = .ok it ∨ r.iterateOwn label withSubtypes = .ok it ∨
      r.iterateAll t withSubtypes = .ok it) : it.Made := by
  rcases hok with hok | hok | hok
  · obtain ⟨ix, -, hok⟩ := bind_eq_ok.mp hok
    obtain ⟨it, hit, hok⟩ := bind_eq_ok.mp hok
    cases hok
    exact (Index.made_iterate hit).map _
  · obtain ⟨ix, -, hok⟩ := bind_eq_ok.mp hok
    obtain ⟨it, hit, hok⟩ := bind_eq_ok.mp hok
    cases hok
    exact (Index.made_iterate hit).map _
  · obtain ⟨it, hit, hok⟩ := bind_eq_ok.mp hok
    cases hok
    exact (Index.made_iterate hit).map _

namespace Iter

variable {σ : Type} {it : Iter σ}

/-! ### What holds of every iterator -/

/-- What can be relied on in the use of an iterator. The runs of the loops over it are runs without
a limit. -/
structure Guarded (it : Iter σ) : Prop where
  valid (hv : it.isValid = true) : ∃ fs, it.element? = some fs ∧ it.get = .ok fs
  invalid (hv : it.isValid = false) : it.get = .error .invalidIterator
  ends {m : Step} (hm : m = .next ∨ m = .previous) {n : Nat} (hn : it.span ≤ n) :
    ((Iter.step m)^[n] it).isValid = false
  rest : it.walk.Collects it it.rest.1 it.rest.2
  take (limit : Nat) : (it.take limit).1 = it.rest.1.take limit
  collect (live : σ → Snapshot) :
    it.walk.Collects (it.rebind live .first) (it.collect live).1 (it.collect live).2
  filter (accepts : FeatureStructure → Bool) : ∃ base,
    it.filter accepts = filtered ⟨base, accepts⟩ ∧ Filtered.Skips it.walk accepts .next it base
  step {f : Filtered (Iter σ)} (hf : it = filtered f) (m : Step) : ∃ base,
    it.step m = filtered ⟨base, f.accepts⟩ ∧
      Filtered.Skips f.base.walk f.accepts m.onward (f.base.step m) base
  rebind {f : Filtered (Iter σ)} (hf : it = filtered f) (live : σ → Snapshot) (r : Rebind) : ∃ base,
    it.rebind live r = filtered ⟨base, f.accepts⟩ ∧
      Filtered.Skips f.base.walk f.accepts r.onward (f.base.rebind live r) base

/-- Two iterators compare by their elements, or are refused where one has none. -/
def Compares (a b : Iter σ) (c : Comparator) : Prop :=
  (∃ x y, a.isValid = true ∧ a.element? = some x ∧ b.isValid = true ∧ b.element? = some y ∧
    a.compareTo b = .ok (c.compareFully x y)) ∨
  ((a.isValid = false ∨ b.isValid = false) ∧ a.compareTo b = .error .invalidIterator)

theorem span_walk (it : Iter σ) : it.walk.span it = it.span := by
  obtain ⟨d, hd⟩ := Nat.exists_eq_add_of_lt it.depth_pos
  rw [walk, hd]
  rfl

theorem walk_step (m : Step) (it : Iter σ) : (it.step m).walk = it.walk := by
  rw [walk, walk, step, walk, depth_walkTo_step]

theorem walk_rebind (live : σ → Snapshot) (r : Rebind) (it : Iter σ) :
    (it.rebind live r).walk = it.walk := by
  rw [walk, walk, rebind, depth_rebindTo]

theorem isValid_iterate (m : Step) (n : Nat) (it : Iter σ) :
    ((Iter.step m)^[n] it).isValid = it.walk.isValid ((it.walk.step m)^[n] it) := by
  induction n generalizing it with
  | zero => rfl
  | succ n ih =>
      rw [Function.iterate_succ_apply, Function.iterate_succ_apply, ih, walk_step]
      rfl

theorem Placed.collects_rest (h : it.Placed) : it.walk.Collects it it.rest.1 it.rest.2 := by
  have hcount := (ends_walkTo it.depth).count_le h.to_self true
  exact (ends_walkTo it.depth).collects h.to_self (Nat.le_trans hcount (Nat.le_of_eq it.span_walk))

/-- A filter goes on from where its base has been placed by a run of its loop. -/
theorem skips_settle {base s : Iter σ} (hwalk : s.walk = base.walk) (h : s.Placed)
    (accepts : FeatureStructure → Bool) {m : Step} (hm : ∃ forward, m = .ahead forward) :
    Filtered.Skips base.walk accepts m s (Filtered.settle base.walk m ⟨s, accepts⟩).base := by
  obtain ⟨forward, rfl⟩ := hm
  rw [← hwalk]
  exact Filtered.skips_settle (ends_walkTo s.depth) (f := ⟨s, accepts⟩) h.to_self forward

/-- **Every use of a placed iterator is safe and comes to an end.** -/
theorem Placed.guarded (h : it.Placed) : it.Guarded where
  valid hv := by
    obtain ⟨fs, hfs⟩ := (ends_walkTo it.depth).exists_element h.to_self hv
    refine ⟨fs, hfs, ?_⟩
    rw [Iter.get, hv, show it.element? = some fs from hfs]
  invalid hv := by rw [Iter.get, hv]
  ends {m} hm n hn := by
    have hspan : it.walk.span it ≤ n := by rwa [span_walk]
    rw [isValid_iterate]
    rcases hm with rfl | rfl
    · exact (ends_walkTo it.depth).isValid_iterate h.to_self true hspan
    · exact (ends_walkTo it.depth).isValid_iterate h.to_self false hspan
  rest := h.collects_rest
  take limit := h.collects_rest.collect_eq limit
  collect live := by
    have hrest := (h.rebind live .first).collects_rest
    rwa [walk_rebind] at hrest
  filter accepts := ⟨_, rfl, skips_settle rfl h accepts ⟨true, rfl⟩⟩
  step {f} hf m := by
    subst hf
    obtain ⟨base, accepts⟩ := f
    have hbase : base.Placed := h
    exact ⟨_, rfl, skips_settle (walk_step m base) (hbase.step m) accepts m.exists_onward⟩
  rebind {f} hf live r := by
    subst hf
    obtain ⟨base, accepts⟩ := f
    have hbase : base.Placed := h
    exact ⟨_, rfl, skips_settle (walk_rebind live r base) (hbase.rebind live r) accepts
      r.exists_onward⟩

theorem Placed.compares {other : Iter σ} (h : it.Placed) (ho : other.Placed) {c d : Comparator}
    (hc : it.comparator? = some c) (hd : other.comparator? = some d)
    (horders : c.ordersLike d = true) : it.Compares other c := by
  rw [Compares, compareTo_eq hc hd, OrderedIter.compareTo_eq_of_ordersLike horders]
  cases hv : it.isValid with
  | false =>
      rw [h.guarded.invalid hv]
      exact .inr ⟨.inl rfl, rfl⟩
  | true =>
      obtain ⟨x, hx, hget⟩ := h.guarded.valid hv
      rw [hget]
      cases hov : other.isValid with
      | false =>
          rw [ho.guarded.invalid hov]
          exact .inr ⟨.inr rfl, rfl⟩
      | true =>
          obtain ⟨y, hy, hget'⟩ := ho.guarded.valid hov
          rw [hget']
          exact .inl ⟨x, y, rfl, hx, rfl, hy, rfl⟩

/-- **Iterators never look at an element that is not there, and every walk ends**, however they have
come about and whatever happened to the stores since. -/
theorem Made.guarded_spec (h : it.Made) :
    it.Guarded ∧ ∀ other : Iter σ, other.Made → ∀ c d, it.comparator? = some c →
      other.comparator? = some d → c.ordersLike d = true → it.Compares other c := by
  refine ⟨h.placed.guarded, ?_⟩
  intro other ho c d hc hd horders
  exact h.placed.compares ho.placed hc hd horders

namespace Sample

open Index.Sample

/-- The marks of the sample index. -/
def marks : SortedCursor TypeCode :=
  .start ⟨1⟩ definition.comparator (index.snapshot ⟨1⟩)

/-- A merge that walks the marks twice over, from two places. -/
def twice : Iter TypeCode :=
  merge (Merge.selectLeast ⟨[marks, marks.step .last], definition.comparator, none, true⟩)

theorem made_twice : twice.Made := by
  have hmarks : (sorted marks).Made := .sorted ..
  refine .merge ?_ (show ofSorted [marks, marks.step .last] = .ok twice from rfl)
  intro s hs
  rcases List.mem_pair.mp hs with rfl | rfl
  · exact hmarks
  · exact hmarks.step .last

/-- The merge behind a condition, in a row with itself, after a turn. -/
def turned : Iter TypeCode :=
  (((ofList [twice.filter fun fs => fs.id.val != 3, twice] definition.comparator .sorted).step
    .next).step .next).step .previous

theorem made_turned : turned.Made := by
  have hsubs : ∀ s ∈ [twice.filter fun fs => fs.id.val != 3, twice], s.Made := by
    intro s hs
    rcases List.mem_pair.mp hs with rfl | rfl
    · exact made_twice.filter _
    · exact made_twice
  exact (((Made.concat hsubs _ _).step .next).step .next).step .previous

end Sample

theorem guarded_turned : Sample.turned.isValid = true ∧ Sample.turned.Guarded ∧
    Sample.twice.Compares Sample.twice Index.Sample.definition.comparator :=
  ⟨rfl, (Made.guarded_spec Sample.made_turned).1,
    (Made.guarded_spec Sample.made_twice).2 _ Sample.made_twice _ _ rfl rfl rfl⟩

end Iter
end FeatureIndex
