import FeatureIndex.Proofs.Iter

/-!
# What iterators are bound to

A rebinding binds leaves of an iterator anew, not always all of them: a concatenation that looks for
a target stops at the first match, and the leaves behind it stay bound as they were. `marked` tells
which ones are bound anew, and `leaves_rebind` that this is what becomes of the leaves.

`Apart` is what an iterator has to be promised about the contents of its leaves: no merge in it is
bound to two structures that agree in keys and id.
-/

namespace FeatureIndex.Iter

variable {σ : Type}

/-! ### Telling structures apart -/

mutual

/-- No merge in the iterator is bound to two structures that agree in keys and id. -/
def Apart : Iter σ → Prop
  | sorted _ | bag _ => True
  | merge m => Separate m.comparator.compareFully m.views
  | concat ⟨subs, _, _, _⟩ => ApartAll subs
  | filtered ⟨base, _⟩ => Apart base

/-- No merge in some iterators is bound to two structures that agree in keys and id. -/
def ApartAll : List (Iter σ) → Prop
  | [] => True
  | it :: rest => Apart it ∧ ApartAll rest

end

theorem apartAll_iff {subs : List (Iter σ)} : ApartAll subs ↔ ∀ it ∈ subs, it.Apart := by
  induction subs with
  | nil => exact ⟨nofun, fun _ => trivial⟩
  | cons it rest ih => rw [ApartAll, ih, List.forall_mem_cons]

theorem apart_concat {c : Concat (Iter σ)} : (concat c).Apart ↔ ∀ s ∈ c.subs, s.Apart := by
  obtain ⟨subs, comparator, kind, current⟩ := c
  exact apartAll_iff

/-! ### Rebinding -/

/-- The leaves of iterators up to a depth, each with whether a rebinding binds it anew. -/
def markedTo (live : σ → Snapshot) : Nat → Rebind → Iter σ → List ((σ × Snapshot) × Bool)
  | 0, _, it => it.leaves.map fun l => (l, false)
  | depth + 1, r, it =>
    match it with
    | sorted _ | bag _ | merge _ => it.leaves.map fun l => (l, true)
    | concat c =>
      let reached := c.reached (walkTo depth) (rebindTo live depth) r
      (c.subs.take reached).flatMap (markedTo live depth r) ++
        (c.subs.drop reached).flatMap fun s => s.leaves.map fun l => (l, false)
    | filtered f => markedTo live depth r f.base

/-- The leaves of the iterator, each with whether a rebinding binds it anew. -/
def marked (live : σ → Snapshot) (r : Rebind) (it : Iter σ) : List ((σ × Snapshot) × Bool) :=
  markedTo live it.depth r it

section Rebinding

variable (live : σ → Snapshot) (r : Rebind)

theorem map_fst_markedTo (d : Nat) (it : Iter σ) :
    (markedTo live d r it).map (·.1) = it.leaves := by
  have hid : ∀ (b : Bool) (ls : List (σ × Snapshot)),
      (ls.map fun l => (l, b)).map (·.1) = ls := by
    intro b ls
    rw [List.map_map]
    exact List.map_id _
  induction d generalizing it with
  | zero => exact hid false it.leaves
  | succ d ih =>
      cases it with
      | sorted c => rfl
      | bag c => rfl
      | merge m => exact hid true _
      | concat c =>
          obtain ⟨subs, comparator, kind, current⟩ := c
          simp only [markedTo, List.map_append, List.map_flatMap, ih, hid]
          rw [← List.flatMap_append, List.take_append_drop, leaves, leavesAll_eq]
      | filtered f => exact ih f.base

/-- The leaf after the rebinding that it is marked for. -/
def settled (p : (σ × Snapshot) × Bool) : σ × Snapshot := if p.2 then (p.1.1, live p.1.1) else p.1

theorem leaves_rebindTo (d : Nat) (it : Iter σ) :
    (rebindTo live d r it).leaves = (markedTo live d r it).map (settled live) := by
  have hold : ∀ ls : List (σ × Snapshot), (ls.map fun l => (l, false)).map (settled live) = ls := by
    intro ls
    rw [List.map_map]
    exact List.map_id _
  induction d generalizing it with
  | zero => exact (hold it.leaves).symm
  | succ d ih =>
      cases it with
      | sorted c => cases r <;> rfl
      | bag c => cases r <;> rfl
      | merge m =>
          have hsubs : (m.rebind live r).subs = m.subs.map (SortedCursor.rebind live r) := by
            cases r <;> rfl
          simp only [rebindTo, markedTo, leaves, hsubs, List.map_map]
          apply List.map_congr_left
          intro s _
          cases r <;> rfl
      | concat c =>
          -- the steps that follow bind nothing anew
          have hsubs := map_eq_of_forall₂ (g := leaves) <|
            (Concat.forall₂_subs_rebind (c := c) (preserves_walkTo (fun _ v => v) d)
              (rebindTo live d) r).imp fun _ _ => leaves_eq_of_still
          have hleaves : (rebindTo live (d + 1) r (concat c)).leaves =
              ((c.rebind (walkTo d) (rebindTo live d) r).subs.map leaves).flatten :=
            leavesAll_eq _
          rw [hleaves, hsubs, ← List.flatMap_def, List.flatMap_append, List.flatMap_map]
          simp only [markedTo, List.map_append, List.map_flatMap, hold, ih]
      | filtered f =>
          have hbase := leaves_eq_of_still
            (Filtered.preserved_rebind (preserves_walkTo (fun _ v => v) d) (rebindTo live d) r f)
          rw [markedTo, ← ih]
          exact hbase

/-- **A rebinding binds the marked leaves anew** and leaves the others as they were. -/
theorem leaves_rebind (it : Iter σ) :
    (it.rebind live r).leaves = (it.marked live r).map (settled live) :=
  leaves_rebindTo live r it.depth it

theorem map_fst_marked (it : Iter σ) : (it.marked live r).map (·.1) = it.leaves :=
  map_fst_markedTo live r it.depth it

theorem still_rebindTo (g : σ → Snapshot) (d : Nat) (it : Iter σ) :
    still (fun a _ => g a) (rebindTo live d r it) = still (fun a _ => g a) it := by
  induction d generalizing it with
  | zero => rfl
  | succ d ih =>
      cases it with
      | sorted c => cases r <;> rfl
      | bag c => cases r <;> rfl
      | merge m => exact congrArg merge (m.rebound_rebind live g r)
      | concat c =>
          -- reached or not, a cursor is the same once it stands nowhere
          have hsubs := Concat.forall₂_subs_rebind (c := c) (preserves_walkTo (fun a _ => g a) d)
            (rebindTo live d) r
          have hmap := map_eq_of_forall₂ (g := still fun a _ => g a) hsubs
          obtain ⟨hcomparator, hkind⟩ := c.comparator_rebind (walkTo d) (rebindTo live d) r
          rw [List.map_append, List.map_map] at hmap
          simp only [Function.comp_def, ih] at hmap
          rw [← List.map_append, List.take_append_drop] at hmap
          show still _ (concat (c.rebind (walkTo d) (rebindTo live d) r)) = _
          rw [still_concat, still_concat, hmap, hcomparator, hkind]
      | filtered f =>
          have hbase := (Filtered.preserved_rebind (preserves_walkTo (fun a _ => g a) d)
            (rebindTo live d) r f).trans (ih f.base)
          exact congrArg (fun base => filtered ⟨base, f.accepts⟩) hbase

/-- Rebinding does not change what the iterator will be bound to. -/
theorem rebound_rebind (g : σ → Snapshot) (it : Iter σ) :
    (it.rebind live r).rebound g = it.rebound g :=
  still_rebindTo live r g it.depth it

end Rebinding
/-! ### Bound to the present contents -/

mutual

/-- Only the snapshots that take the place of those of the leaves count. -/
theorem still_congr {f g : σ → Snapshot → Snapshot} (it : Iter σ)
    (h : ∀ l ∈ it.leaves, f l.1 l.2 = g l.1 l.2) : still f it = still g it := by
  cases it with
  | sorted c => rw [still, still, h _ List.mem_cons_self]
  | bag c => rw [still, still, h _ List.mem_cons_self]
  | merge m =>
      rw [still, still]
      congr 2
      apply List.map_congr_left
      intro s hs
      rw [h _ (List.mem_map_of_mem hs)]
  | concat c =>
      obtain ⟨subs, comparator, kind, current⟩ := c
      rw [still, still, stillAll_congr subs h]
  | filtered f =>
      obtain ⟨base, accepts⟩ := f
      rw [still, still, still_congr base h]

theorem stillAll_congr {f g : σ → Snapshot → Snapshot} (subs : List (Iter σ))
    (h : ∀ l ∈ leavesAll subs, f l.1 l.2 = g l.1 l.2) : stillAll f subs = stillAll g subs := by
  cases subs with
  | nil => rfl
  | cons it rest =>
      rw [leavesAll, List.forall_mem_append] at h
      rw [stillAll, stillAll, still_congr it h.1, stillAll_congr rest h.2]

end

mutual

theorem bound_still (it : Iter σ) : (still (fun _ v => v) it).bound = it.bound := by
  cases it with
  | sorted c => rfl
  | bag c => rfl
  | merge m =>
      rw [still, bound, bound, Merge.union, Merge.union, Merge.views, Merge.views, List.map_map]
      rfl
  | concat c =>
      obtain ⟨subs, comparator, kind, current⟩ := c
      exact boundAll_still subs
  | filtered f =>
      obtain ⟨base, accepts⟩ := f
      rw [still, bound, bound, bound_still base]

theorem boundAll_still (subs : List (Iter σ)) :
    boundAll (stillAll (fun _ v => v) subs) = boundAll subs := by
  cases subs with
  | nil => rfl
  | cons it rest => rw [stillAll, boundAll, boundAll, bound_still it, boundAll_still rest]

end

mutual

theorem apart_still (it : Iter σ) : (still (fun _ v => v) it).Apart ↔ it.Apart := by
  cases it with
  | sorted c => exact Iff.rfl
  | bag c => exact Iff.rfl
  | merge m =>
      rw [still, Apart, Apart, Merge.views, Merge.views, List.map_map]
      exact Iff.rfl
  | concat c =>
      obtain ⟨subs, comparator, kind, current⟩ := c
      exact apartAll_still subs
  | filtered f =>
      obtain ⟨base, accepts⟩ := f
      rw [still, Apart, Apart, apart_still base]

theorem apartAll_still (subs : List (Iter σ)) :
    ApartAll (stillAll (fun _ v => v) subs) ↔ ApartAll subs := by
  cases subs with
  | nil => exact Iff.rfl
  | cons it rest => rw [stillAll, ApartAll, ApartAll, apart_still it, apartAll_still rest]

end

theorem apart_eq_of_still {it it' : Iter σ}
    (h : still (fun _ v => v) it' = still (fun _ v => v) it) : it'.Apart ↔ it.Apart := by
  rw [← apart_still, h, apart_still]

@[simp] theorem apart_step (m : Step) (it : Iter σ) : (it.step m).Apart ↔ it.Apart :=
  apart_eq_of_still (still_step _ m it)

@[simp] theorem apart_filter (it : Iter σ) (accepts : FeatureStructure → Bool) :
    (it.filter accepts).Apart ↔ it.Apart := by
  rw [← apart_still, still_filter, Apart, apart_still]

theorem apart_ofList (subs : List (Iter σ)) (comparator : Comparator) (kind : IndexKind) :
    (ofList subs comparator kind).Apart ↔ ∀ s ∈ subs, s.Apart := by
  rw [← apart_concat (c := ⟨subs, comparator, kind, none⟩)]
  apply apart_eq_of_still
  rw [still_ofList, still_concat]

mutual

theorem sound_still (it : Iter σ) : (still (fun _ v => v) it).Sound ↔ it.Sound := by
  cases it with
  | sorted c => exact Iff.rfl
  | bag c => exact Iff.rfl
  | merge m =>
      have hbinding : (m.subs.map fun c => (⟨c.source, c.comparator, ⟨c.cursor.view, none⟩⟩ :
          SortedCursor σ)).map SortedCursor.binding = m.subs.map SortedCursor.binding := by
        rw [List.map_map]
        rfl
      exact Merge.sound_congr rfl hbinding
  | concat c =>
      obtain ⟨subs, comparator, kind, current⟩ := c
      exact soundAll_still subs
  | filtered f =>
      obtain ⟨base, accepts⟩ := f
      rw [still, Sound, Sound, sound_still base]

theorem soundAll_still (subs : List (Iter σ)) :
    SoundAll (stillAll (fun _ v => v) subs) ↔ SoundAll subs := by
  cases subs with
  | nil => exact Iff.rfl
  | cons it rest => rw [stillAll, SoundAll, SoundAll, sound_still it, soundAll_still rest]

end

section Present

variable {live : σ → Snapshot} {it : Iter σ}

theorem rebound_eq_still (h : ∀ l ∈ it.leaves, live l.1 = l.2) :
    it.rebound live = still (fun _ v => v) it :=
  still_congr (g := fun _ v => v) it h

/-- **An iterator whose leaves still hold what they are bound to walks the present contents.** -/
theorem bound_rebound (h : ∀ l ∈ it.leaves, live l.1 = l.2) :
    (it.rebound live).bound = it.bound := by
  rw [rebound_eq_still h, bound_still]

theorem apart_rebound (h : ∀ l ∈ it.leaves, live l.1 = l.2) :
    (it.rebound live).Apart ↔ it.Apart := by
  rw [rebound_eq_still h, apart_still]

theorem sound_rebound (h : ∀ l ∈ it.leaves, live l.1 = l.2) :
    (it.rebound live).Sound ↔ it.Sound := by
  rw [rebound_eq_still h, sound_still]

end Present

end FeatureIndex.Iter
