import FeatureIndex.Proofs.Lockstep
import FeatureIndex.Proofs.Rebinding

/-!
# Iterators that walk a list

`Iter.Walks` says what can be seen of an iterator from outside: it answers as a list cursor over
what it is bound to does, now and after any steps. How it stands inside does not matter, so one can
assume it of an iterator without knowing what that is made of. An iterator that stands with a list
cursor walks its list (`Stands.walks`); one over a single store does wherever it stands in range.

What is built from walking iterators follows the list that is built from their lists: `follows_over`
says this of filters and of concatenations, one level above the iterators that they are made of.
-/

namespace FeatureIndex

/-- Concatenations in step are the same when their cursors are. -/
theorem Concat.InStep.eq {S : Type} {R : S → S → Prop} {c d : Concat S} (h : c.InStep R d)
    (hR : ∀ s t, R s t → s = t) : c = d := by
  have hsubs := h.subs.imp fun s t hst => hR s t hst
  rw [List.forall₂_eq_eq_eq] at hsubs
  obtain ⟨subs, comparator, kind, current⟩ := c
  obtain ⟨-, rfl, rfl, rfl⟩ := h
  obtain rfl := hsubs
  rfl

namespace Iter

variable {σ : Type}

/-- The iterator answers as a list cursor over what it is bound to, now and after any steps. -/
structure Walks (it : Iter σ) (l : ListCursor) : Prop where
  items : l.items = it.bound
  inRange : l.InRange
  answers (ms : List Step) :
    (ms.foldl (fun it m => it.step m) it).isValid = (ms.foldl (fun l m => l.step m) l).isValid ∧
      (ms.foldl (fun it m => it.step m) it).element? = (ms.foldl (fun l m => l.step m) l).element?

variable {it : Iter σ} {l : ListCursor} {d : Nat}

theorem bound_eq_of_still {it it' : Iter σ}
    (h : still (fun _ v => v) it' = still (fun _ v => v) it) : it'.bound = it.bound := by
  rw [← bound_still, h, bound_still]

/-- Steps do not change what is walked. -/
theorem bound_step (m : Step) (it : Iter σ) : (it.step m).bound = it.bound :=
  bound_eq_of_still (still_step _ m it)

theorem bound_foldl_step (it : Iter σ) (ms : List Step) :
    (ms.foldl (fun it m => it.step m) it).bound = it.bound := by
  induction ms generalizing it with
  | nil => rfl
  | cons m rest ih => rw [List.foldl_cons, ih, bound_step]

namespace Walks

theorem isValid (h : it.Walks l) : it.isValid = l.isValid := (h.answers []).1

theorem element? (h : it.Walks l) : it.element? = l.element? := (h.answers []).2

theorem get (h : it.Walks l) : it.get = l.get := by
  rw [Iter.get, h.isValid, h.element?, h.inRange.isValid_eq, ListCursor.get]
  cases l.element? <;> rfl

theorem step (h : it.Walks l) (m : Step) : (it.step m).Walks (l.step m) where
  items := by rw [l.items_step, bound_step, h.items]
  inRange := h.inRange.step m
  answers ms := h.answers (m :: ms)

theorem foldl_step (h : it.Walks l) (ms : List Step) :
    (ms.foldl (fun it m => it.step m) it).Walks (ms.foldl (fun l m => l.step m) l) :=
  List.foldl_rel h fun m _ _ _ hs => hs.step m

theorem iterate_step (h : it.Walks l) (m : Step) (k : Nat) :
    ((Iter.step m)^[k] it).Walks ((ListCursor.step m)^[k] l) := by
  induction k generalizing it l with
  | zero => exact h
  | succ k ih => exact ih (h.step m)

end Walks

/-! ### Walks of iterators agree on what they reach -/

mutual

theorem depth_still (f : σ → Snapshot → Snapshot) (it : Iter σ) :
    (still f it).depth = it.depth := by
  cases it with
  | sorted c => rfl
  | bag c => rfl
  | merge m => rfl
  | concat c =>
      obtain ⟨subs, comparator, kind, current⟩ := c
      exact congrArg Nat.succ (depthAll_still f subs)
  | filtered g =>
      obtain ⟨base, accepts⟩ := g
      exact congrArg Nat.succ (depth_still f base)

theorem depthAll_still (f : σ → Snapshot → Snapshot) (subs : List (Iter σ)) :
    depthAll (stillAll f subs) = depthAll subs := by
  cases subs with
  | nil => rfl
  | cons it rest => rw [stillAll, depthAll, depthAll, depth_still, depthAll_still]

end

theorem depth_walkTo_step (d : Nat) (m : Step) (it : Iter σ) :
    ((walkTo d).step m it).depth = it.depth := by
  rw [← depth_still fun _ v => v, (preserves_walkTo _ d).step rfl m, depth_still]

theorem depth_rebindTo (live : σ → Snapshot) (d : Nat) (r : Rebind) (it : Iter σ) :
    (rebindTo live d r it).depth = it.depth := by
  rw [← depth_still fun a _ => live a, still_rebindTo, depth_still]

theorem depth_pos (it : Iter σ) : 0 < it.depth := by
  rcases it with c | c | m | ⟨subs, comparator, kind, current⟩ | ⟨base, accepts⟩ <;>
    exact Nat.succ_pos _

/-- One iterator, within the reach of two walks. -/
def Shared (d d' : Nat) (s t : Iter σ) : Prop := s = t ∧ s.depth ≤ d ∧ s.depth ≤ d'

theorem shared_subs {c : Concat (Iter σ)} {d' : Nat} (h : Shared (d + 1) (d' + 1) (concat c) it) :
    c.InStep (Shared d d') c := by
  obtain ⟨subs, comparator, kind, current⟩ := c
  obtain ⟨-, hd, hd'⟩ := h
  refine ⟨List.forall₂_same.mpr fun s hs => ⟨rfl, ?_, ?_⟩, rfl, rfl, rfl⟩
  · exact Nat.le_trans (depth_le_depthAll hs) (Nat.le_of_succ_le_succ hd)
  · exact Nat.le_trans (depth_le_depthAll hs) (Nat.le_of_succ_le_succ hd')

theorem shared_base {f : Filtered (Iter σ)} {d' : Nat}
    (h : Shared (d + 1) (d' + 1) (filtered f) it) : f.InStep (Shared d d') f := by
  obtain ⟨base, accepts⟩ := f
  exact ⟨⟨rfl, Nat.le_of_succ_le_succ h.2.1, Nat.le_of_succ_le_succ h.2.2⟩, rfl⟩

/-- Two walks that reach an iterator do the same with it. -/
theorem inStep_walkTo_walkTo (d d' : Nat) :
    (walkTo d).InStep (walkTo d') (Shared (σ := σ) d d') := by
  induction d generalizing d' with
  | zero =>
      refine ⟨?_, ?_, ?_, ?_⟩ <;>
        exact fun {s} _ h => absurd h.2.1 (Nat.not_le.mpr s.depth_pos)
  | succ d ih =>
      cases d' with
      | zero =>
          refine ⟨?_, ?_, ?_, ?_⟩ <;>
            exact fun {s} _ h => absurd h.2.2 (Nat.not_le.mpr s.depth_pos)
      | succ d' =>
          refine ⟨?_, ?_, ?_, ?_⟩
          · intro s t h
            obtain rfl := h.1
            cases s with
            | filtered f => exact (ih d').isValid (shared_base h).base
            | _ => rfl
          · intro s t h
            obtain rfl := h.1
            cases s with
            | concat c => exact (shared_subs h).element? (ih d')
            | filtered f => exact (ih d').element? (shared_base h).base
            | _ => rfl
          · intro s t h m
            obtain ⟨rfl, hd, hd'⟩ := id h
            refine ⟨?_, by rwa [depth_walkTo_step], by rwa [depth_walkTo_step]⟩
            cases s with
            | concat c =>
                have hstep := (shared_subs h).step (ih d') m
                exact congrArg concat (hstep.eq fun _ _ hs => hs.1)
            | filtered f =>
                have hstep := (shared_base h).step (ih d') m
                exact congrArg (fun base => filtered ⟨base, f.accepts⟩) hstep.base.1
            | _ => rfl
          · rintro s _ ⟨rfl, -, -⟩
            rfl

/-- A walk that reaches an iterator is the walk that fits it. -/
theorem inStep_walkTo_walk (hd : it.depth ≤ d) :
    (walkTo d).isValid it = it.isValid ∧ (walkTo d).element? it = it.element? ∧
      ∀ m, (walkTo d).step m it = it.step m := by
  have hw := inStep_walkTo_walkTo (σ := σ) d it.depth
  have hself : Shared d it.depth it it := ⟨rfl, hd, Nat.le_refl _⟩
  exact ⟨hw.isValid hself, hw.element? hself, fun m => (hw.step hself m).1⟩

/-- Rebindings that reach an iterator do the same with it. -/
theorem shared_rebindTo (live : σ → Snapshot) {d' : Nat} {s t : Iter σ} (h : Shared d d' s t)
    (r : Rebind) : Shared d d' (rebindTo live d r s) (rebindTo live d' r t) := by
  induction d generalizing d' s t r with
  | zero => exact absurd h.2.1 (Nat.not_le.mpr s.depth_pos)
  | succ d ih =>
      cases d' with
      | zero => exact absurd h.2.2 (Nat.not_le.mpr s.depth_pos)
      | succ d' =>
          obtain ⟨rfl, hd, hd'⟩ := id h
          refine ⟨?_, by rwa [depth_rebindTo], by rwa [depth_rebindTo]⟩
          have hw := inStep_walkTo_walkTo (σ := σ) d d'
          cases s with
          | concat c =>
              have hrebind := (shared_subs h).rebind hw (fun r _ _ hs => ih hs r) r
              exact congrArg concat (hrebind.eq fun _ _ hs => hs.1)
          | filtered f =>
              have hrebind := (shared_base h).rebind hw (fun r _ _ hs => ih hs r) r
              exact congrArg (fun base => filtered ⟨base, f.accepts⟩) hrebind.base.1
          | _ => rfl

/-- A rebinding that reaches an iterator is the rebinding that fits it. -/
theorem rebindTo_eq (live : σ → Snapshot) (hd : it.depth ≤ d) (r : Rebind) :
    rebindTo live d r it = it.rebind live r :=
  (shared_rebindTo live ⟨rfl, hd, Nat.le_refl _⟩ r).1

/-- A concatenation rebinds its iterators as they rebind themselves. -/
theorem rebind_concat (live : σ → Snapshot) (r : Rebind) (c : Concat (Iter σ)) :
    (concat c).rebind live r =
      concat (c.rebind (walkTo (depthAll c.subs)) (fun r s => s.rebind live r) r) := by
  obtain ⟨subs, comparator, kind, current⟩ := c
  have hself : Shared _ _ (concat ⟨subs, comparator, kind, current⟩) _ :=
    ⟨rfl, Nat.le_refl _, Nat.le_refl _⟩
  have hsubs : ∀ r s t, Shared (depthAll subs) (depthAll subs) s t →
      Shared (depthAll subs) (depthAll subs) (rebindTo live (depthAll subs) r s)
        (t.rebind live r) := by
    intro r s t hs
    rw [← rebindTo_eq live (hs.1 ▸ hs.2.1)]
    exact shared_rebindTo live hs r
  have hrebind := (shared_subs hself).rebind (inStep_walkTo_walkTo _ _) hsubs r
  exact congrArg concat (hrebind.eq fun _ _ hs => hs.1)

/-! ### Iterators that walk -/

/-- **An iterator walks when it follows a list cursor** in whatever relation that is kept by the
moves. -/
theorem walks_of_follows {R : Iter σ → ListCursor → Prop} (hw : (walkTo d).Follows R)
    (hdepth : ∀ it l, R it l → it.depth ≤ d) (hitems : l.items = it.bound) (h : R it l) :
    it.Walks l := by
  refine ⟨hitems, hw.inRange h, fun ms => ?_⟩
  clear hitems
  induction ms generalizing it l with
  | nil =>
      obtain ⟨hvalid, helement, -⟩ := inStep_walkTo_walk (hdepth it l h)
      exact ⟨hvalid.symm.trans (hw.isValid h), helement.symm.trans (hw.element? h)⟩
  | cons m rest ih =>
      rw [List.foldl_cons, List.foldl_cons, ← (inStep_walkTo_walk (hdepth it l h)).2.2 m]
      exact ih (hw.step h m)

theorem Stands.walks (h : it.Stands l) : it.Walks l where
  items := h.items
  inRange := h.inRange
  answers ms := by
    have hstands := h.foldl_step ms
    exact ⟨hstands.isValid, (follows_walkTo _).element? hstands⟩

/-- Over one store, an iterator walks wherever it stands. -/
theorem walks_sorted {c : SortedCursor σ} (h : c.cursor.list.InRange) :
    (sorted c).Walks c.cursor.list :=
  Stands.walks ⟨rfl, h⟩

theorem walks_bag {c : BagCursor σ} (h : c.cursor.list.InRange) : (bag c).Walks c.cursor.list :=
  Stands.walks ⟨rfl, h⟩

/-- Iterators within reach of a walk, with the list cursors that they walk as. -/
def walksTo (d : Nat) (it : Iter σ) (l : ListCursor) : Prop := it.depth ≤ d ∧ it.Walks l

theorem follows_walksTo (d : Nat) : (walkTo d).Follows (walksTo (σ := σ) d) where
  inRange h := h.2.inRange
  isValid h := (inStep_walkTo_walk h.1).1.trans h.2.isValid
  element? h := (inStep_walkTo_walk h.1).2.1.trans h.2.element?
  step {it l} h m := by
    refine ⟨by rw [depth_walkTo_step]; exact h.1, ?_⟩
    rw [(inStep_walkTo_walk h.1).2.2]
    exact h.2.step m
  span {it l} h := by
    obtain ⟨e, rfl⟩ := Nat.exists_eq_add_of_lt (Nat.lt_of_lt_of_le it.depth_pos h.1)
    rw [h.2.items]
    exact it.length_bound_le_span

/-! ### What is made of iterators that walk -/

theorem depthAll_le {subs : List (Iter σ)} (h : ∀ s ∈ subs, s.depth ≤ d) : depthAll subs ≤ d := by
  induction subs with
  | nil => exact Nat.zero_le d
  | cons s rest ih =>
      obtain ⟨hs, hrest⟩ := List.forall_mem_cons.mp h
      exact Nat.max_le.mpr ⟨hs, ih hrest⟩

/-- A filter or a concatenation that stands where its iterators walk. -/
def standsOver (d : Nat) : Iter σ → ListCursor → Prop
  | concat c, l => c.Stands (walksTo d) l
  | filtered f, l => f.Stands (walksTo d) l
  | _, _ => False

theorem depth_le_of_standsOver (h : standsOver d it l) : it.depth ≤ d + 1 := by
  cases it with
  | sorted | bag | merge => exact h.elim
  | concat c =>
      obtain ⟨subs, comparator, kind, current⟩ := c
      obtain ⟨cs, hsubs, -⟩ := h
      exact Nat.succ_le_succ (depthAll_le fun s hs => by
        obtain ⟨c, hc⟩ := Concat.exists_of_forall₂ hsubs s hs
        exact hc.1)
  | filtered f =>
      obtain ⟨base, accepts⟩ := f
      obtain ⟨b, hb, -⟩ := h
      exact Nat.succ_le_succ hb.1

theorem items_of_standsOver (h : standsOver d it l) : l.items = it.bound := by
  cases it with
  | sorted | bag | merge => exact h.elim
  | concat c =>
      obtain ⟨subs, comparator, kind, current⟩ := c
      obtain ⟨cs, hsubs, hitems, -⟩ := h
      rw [hitems, bound, boundAll_eq]
      exact joined_eq_flatMap (hsubs.imp fun _ _ hs => hs.2.items)
  | filtered f =>
      obtain ⟨base, accepts⟩ := f
      obtain ⟨b, hb, hitems, -⟩ := h
      rw [hitems, bound, hb.2.items]

/-- **What is made of iterators that walk follows the list that is made of their lists.** -/
theorem follows_over (d : Nat) : (walkTo (d + 1)).Follows (standsOver (σ := σ) d) := by
  have hw := follows_walksTo (σ := σ) d
  refine ⟨?_, ?_, ?_, ?_, ?_⟩
  · intro it l h
    cases it with
    | sorted | bag | merge => exact h.elim
    | concat c => exact Concat.Stands.inRange hw h
    | filtered f => exact Filtered.Stands.inRange h
  · intro it l h
    cases it with
    | sorted | bag | merge => exact h.elim
    | concat c => exact Concat.Stands.isValid h
    | filtered f => exact Filtered.Stands.isValid hw h
  · intro it l h
    cases it with
    | sorted | bag | merge => exact h.elim
    | concat c => exact Concat.Stands.element? hw h
    | filtered f => exact Filtered.Stands.element? hw h
  · intro it l h m
    cases it with
    | sorted | bag | merge => exact h.elim
    | concat c => exact Concat.Stands.step hw h m
    | filtered f => exact Filtered.Stands.step hw h m
  · intro it l h
    rw [items_of_standsOver h]
    exact it.length_bound_le_span

theorem standsOver_step (h : standsOver d it l) (m : Step) :
    standsOver d (it.step m) (l.step m) := by
  rw [← (inStep_walkTo_walk (depth_le_of_standsOver h)).2.2]
  exact (follows_over d).step h m

theorem walks_of_standsOver (h : standsOver d it l) : it.Walks l :=
  walks_of_follows (follows_over d) (fun _ _ => depth_le_of_standsOver) (items_of_standsOver h) h

end Iter
end FeatureIndex
