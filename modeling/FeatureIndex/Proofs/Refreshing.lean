import FeatureIndex.Proofs.Isolation

/-!
# Iterators that are bound anew

After a rebinding an iterator is fresh exactly when each leaf that the rebinding has passed over is
untouched since it was bound (`Index.Reaches`). Then it is bound to all that the index holds now, as
far as its conditions let it through (`Iter.Shows`), and to nothing else, and it stands where the
rebinding should lead. A search in a concatenation may pass over leaves: `not_fresh_behind_match`
has one that misses what has come in behind the match.
-/

namespace FeatureIndex

namespace Iter

variable {σ : Type} {live : σ → Snapshot} {a : σ} {fs : FeatureStructure} {it : Iter σ}

/-- The iterator has a leaf over the store at an address, and no condition on the way from there
rejects the structure. -/
inductive Shows (a : σ) (fs : FeatureStructure) : Iter σ → Prop
  | sorted {c : SortedCursor σ} (h : c.source = a) : Shows a fs (sorted c)
  | bag {c : BagCursor σ} (h : c.source = a) : Shows a fs (bag c)
  | merge {m : Merge σ} {s : SortedCursor σ} (hs : s ∈ m.subs) (h : s.source = a) :
      Shows a fs (merge m)
  | concat {c : Concat (Iter σ)} {s : Iter σ} (hs : s ∈ c.subs) (h : Shows a fs s) :
      Shows a fs (concat c)
  | filtered {f : Filtered (Iter σ)} (h : Shows a fs f.base) (hacc : f.accepts fs = true) :
      Shows a fs (filtered f)

/-- **What an iterator is bound to anew** is what its stores hold, as far as it shows that. -/
theorem mem_bound_rebound (it : Iter σ) :
    fs ∈ (it.rebound live).bound ↔ ∃ a, it.Shows a fs ∧ fs ∈ (live a).elements := by
  induction it using ind with
  | sorted c =>
      constructor
      · intro h
        exact ⟨c.source, .sorted rfl, h⟩
      · rintro ⟨a, ⟨rfl⟩, h⟩
        exact h
  | bag c =>
      constructor
      · intro h
        exact ⟨c.source, .bag rfl, h⟩
      · rintro ⟨a, _ | ⟨rfl⟩, h⟩
        exact h
  | merge m =>
      have hunion : fs ∈ (m.rebound live).union ↔ ∃ s ∈ m.subs, fs ∈ (live s.source).elements := by
        rw [Merge.union, mem_union, Merge.views, Merge.rebound]
        simp
      refine hunion.trans ?_
      constructor
      · rintro ⟨s, hs, h⟩
        exact ⟨s.source, .merge hs rfl, h⟩
      · rintro ⟨a, _ | _ | ⟨hs, rfl⟩, h⟩
        exact ⟨_, hs, h⟩
  | concat c ih =>
      obtain ⟨subs, comparator, kind, current⟩ := c
      rw [rebound, still, bound, boundAll_rebound, List.mem_flatMap]
      constructor
      · rintro ⟨s, hs, h⟩
        obtain ⟨a, hshows, h⟩ := (ih s hs).mp h
        exact ⟨a, .concat hs hshows, h⟩
      · rintro ⟨a, _ | _ | _ | ⟨hs, hshows⟩, h⟩
        exact ⟨_, hs, (ih _ hs).mpr ⟨a, hshows, h⟩⟩
  | filtered f ih =>
      obtain ⟨base, accepts⟩ := f
      rw [rebound, still, bound, List.mem_filter]
      constructor
      · rintro ⟨h, hacc⟩
        obtain ⟨a, hshows, h⟩ := ih.mp h
        exact ⟨a, .filtered hshows hacc, h⟩
      · rintro ⟨a, _ | _ | _ | _ | ⟨hshows, hacc⟩, h⟩
        exact ⟨ih.mpr ⟨a, hshows, h⟩, hacc⟩

/-- From any element an iterator that walks a list reaches all others. -/
theorem Walks.exists_iterate_get {l : ListCursor} (h : it.Walks l) (hv : it.isValid = true)
    (hfs : fs ∈ it.bound) :
    ∃ m k, (m = .next ∨ m = .previous) ∧ ((Iter.step m)^[k] it).get = .ok fs := by
  rw [h.isValid] at hv
  rw [← h.items] at hfs
  obtain ⟨m, k, hm, hget⟩ := ListCursor.exists_iterate_get h.inRange hv hfs
  exact ⟨m, k, hm, (h.iterate_step m k).get.trans hget⟩

end Iter

namespace Index

variable {ix : Index} {cs : List Change} {it : Iter TypeCode} {times : List Nat}

/-- A rebinding that reaches all that has changed binds an iterator to what the index holds now. -/
theorem Reaches.mem_bound {r : Rebind} (h : ix.Reaches cs it times r) (hix : ix.Sound)
    (hbound : List.Forall₂ (ix.BoundAt cs) it.leaves times) (fs : FeatureStructure) :
    fs ∈ (it.rebind (ix.after cs).snapshot r).bound ↔
      fs ∈ (ix.after cs).held ∧ it.Shows fs.type fs := by
  rw [← Iter.bound_rebound (h.live hix hbound), Iter.rebound_rebind, Iter.mem_bound_rebound]
  constructor
  · rintro ⟨t, hshows, hfs⟩
    obtain ⟨hheld, rfl⟩ := (sound_after hix cs).mem_snapshot.mp hfs
    exact ⟨hheld, hshows⟩
  · rintro ⟨hheld, hshows⟩
    exact ⟨fs.type, hshows, (sound_after hix cs).mem_snapshot.mpr ⟨hheld, rfl⟩⟩

/-- **What a rebinding comes to**, whatever an iterator has been through. It is fresh afterwards
exactly when each leaf that was passed over is untouched since it was bound; a rebinding to an end,
or without concatenations, passes over none. Then it is bound to exactly those structures that the
index holds now and that it shows: none of them is missed, and nothing else can be reached.

Where its merges can tell apart what it is bound to, the iterator walks that as a list cursor does
from where the rebinding should lead, and from any element of it to all others. -/
theorem rebind_spec (h : ix.Reachable) (hw : ix.Watches (fun _ => True) cs it times) (r : Rebind) :
    let now := (ix.after cs).snapshot
    let found := it.rebind now r
    (it.Thorough r → ix.Reaches cs it times r) ∧
    (cs.length < 2 ^ 64 → found.isFresh now = true → ix.Reaches cs it times r) ∧
    (ix.Reaches cs it times r →
      found.isFresh now = true ∧
      (∀ fs, fs ∈ found.bound ↔ fs ∈ (ix.after cs).held ∧ it.Shows fs.type fs) ∧
      ∀ (ms : List Step) (fs : FeatureStructure),
        (ms.foldl (fun it m => it.step m) found).get = .ok fs →
          fs ∈ (ix.after cs).held ∧ it.Shows fs.type fs) ∧
    (found.Apart →
      found.Walks (it.landing now r) ∧
      (found.isValid = true → ∀ fs ∈ found.bound,
        ∃ m k, (m = .next ∨ m = .previous) ∧ ((Iter.step m)^[k] found).get = .ok fs)) := by
  intro now found
  have hix := h.sound
  have hwatching := hw.watching hix
  have hbound := hwatching.leaves
  refine ⟨reaches_of_thorough hbound, fun hlen => (isFresh_rebind_iff hix hbound hlen).mp, ?_, ?_⟩
  · intro hreaches
    refine ⟨?_, hreaches.mem_bound hix hbound, ?_⟩
    · rw [Iter.isFresh, List.all_eq_true]
      intro l hl
      have hnow : now l.1 = l.2 := hreaches.live hix hbound l hl
      rw [Snapshot.sameGeneration, hnow, beq_self_eq_true]
    · intro ms fs hget
      have hmem := ((hwatching.rebind r).made.foldl_step ms).mem_bound hget
      rw [Iter.bound_foldl_step] at hmem
      exact (hreaches.mem_bound hix hbound fs).mp hmem
  · intro hapart
    have hwalks := (hwatching.lands hix r hapart).2
    exact ⟨hwalks, fun hv fs hfs => hwalks.exists_iterate_get hv hfs⟩

/-- A move to a key comes to all leaves of the merge over marks and words, and finds a word that has
come in since. -/
theorem rebind_sample :
    let cs := Sample.changes ++ [.insert (Sample.word 3 1)]
    let now := (Sample.empty.after cs).snapshot
    let found := (Iter.merge Sample.merge).rebind now (.toward (Sample.mark 4 1))
    Sample.empty.Watches (fun _ => True) cs (.merge Sample.merge) [3, 3] ∧
      found.isFresh now = true ∧ Sample.word 3 1 ∈ found.bound ∧
      found.Walks ((Iter.merge Sample.merge).landing now (.toward (Sample.mark 4 1))) := by
  intro cs now found
  have hok : (Sample.empty.after Sample.changes).iterate ⟨1⟩ true = .ok (.merge Sample.merge) := rfl
  have hw : Sample.empty.Watches (fun _ => True) cs _ [3, 3] := (Watches.iterate hok).change _
  have hapart : found.Apart := by
    show List.Pairwise _ _
    decide
  have hshows : (Iter.merge Sample.merge).Shows (⟨2⟩ : TypeCode) (Sample.word 3 1) :=
    .merge (List.mem_cons_of_mem _ List.mem_cons_self) rfl
  obtain ⟨hthorough, -, hreached, hlands⟩ :=
    rebind_spec Sample.reachable_empty hw (.toward (Sample.mark 4 1))
  obtain ⟨hfresh, hmem, -⟩ := hreached (hthorough (.inr trivial))
  exact ⟨hw, hfresh, (hmem _).mpr ⟨by decide, hshows⟩, (hlands hapart).1⟩

/-- **A concatenation that has found its target is not fresh**: a word that had come in before is
not reached. -/
theorem not_fresh_behind_match : Sample.bag.Reachable ∧
    ∃ it, (Sample.bag.after (Sample.bagChanges.take 1)).iterate ⟨1⟩ true = .ok it ∧
      let now := Sample.bag.after Sample.bagChanges
      let found := it.rebind now.snapshot (.toward (Sample.mark 0 1))
      found.get = .ok (Sample.mark 0 1) ∧ found.isFresh now.snapshot = false ∧
        Sample.word 1 2 ∈ now.held ∧ (found.step .next).isValid = false :=
  ⟨Sample.reachable_bag, _, rfl, rfl, rfl, by decide, rfl⟩

end Index
end FeatureIndex
