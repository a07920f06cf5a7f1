import FeatureIndex.Proofs.Iteration

/-!
# Iterators in use

`Index.Handed` relates an iterator to the index that has handed it out, as that is now: the iterator
was moved and rebound and the index was changed since, in any order. Nothing is asked of the
structures. Whatever happened, the iterator is still put together from the leaves of the types that
were asked for (`Handed.rebound`).

A rebinding forgets where an iterator stood and what it was bound to, where no concatenation is
involved (`Iter.rebind_rebound`). So an iterator that was handed out lands where a new one would.
-/

namespace FeatureIndex

namespace Iter

variable {σ : Type} {live : σ → Snapshot}

theorem undivided_still (f : σ → Snapshot → Snapshot) :
    ∀ it : Iter σ, (still f it).Undivided ↔ it.Undivided
  | sorted _ | bag _ | merge _ => Iff.rfl
  | concat ⟨_, _, _, _⟩ => Iff.rfl
  | filtered ⟨base, _⟩ => undivided_still f base

theorem rebind_rebound_sorted (live : σ → Snapshot) (r : Rebind) (c : SortedCursor σ) :
    SortedCursor.rebind live r ⟨c.source, c.comparator, ⟨live c.source, none⟩⟩ =
      c.rebind live r := by
  cases r <;> rfl

/-- **A rebinding does not depend on where the iterator stands**, nor on what it is bound to. -/
theorem rebind_rebound (live : σ → Snapshot) (r : Rebind) :
    ∀ it : Iter σ, it.Undivided → (it.rebound live).rebind live r = it.rebind live r
  | sorted c, _ => congrArg sorted (rebind_rebound_sorted live r c)
  | bag c, _ => by cases r <;> rfl
  | merge m, _ => by
      have hsubs : (m.subs.map fun c => (⟨c.source, c.comparator, ⟨live c.source, none⟩⟩ :
          SortedCursor σ)).map (SortedCursor.rebind live r) =
          m.subs.map (SortedCursor.rebind live r) := by
        rw [List.map_map]
        exact List.map_congr_left fun c _ => rebind_rebound_sorted live r c
      obtain ⟨forward, -, -, -, hrebind⟩ := Merge.exists_cut_landing (σ := σ) m.comparator r
      show merge (Merge.rebind live r ⟨_, m.comparator, none, true⟩) = merge (m.rebind live r)
      rw [hrebind, hrebind, hsubs]
      rfl
  | filtered ⟨base, accepts⟩, h => by
      have hbase : rebindTo live base.depth r (base.rebound live) =
          rebindTo live base.depth r base := by
        have hrec := rebind_rebound live r base h
        rwa [rebind, rebind, rebound, depth_still] at hrec
      show rebindTo live ((base.rebound live).depth + 1) r (filtered ⟨base.rebound live, accepts⟩) =
        rebindTo live (base.depth + 1) r (filtered ⟨base, accepts⟩)
      rw [rebound, depth_still]
      simp only [rebindTo, Filtered.rebind]
      rw [← rebound, hbase]

/-- Iterators that are put together alike land alike. -/
theorem rebind_congr {it it' : Iter σ} (h : it.Undivided)
    (heq : it.rebound live = it'.rebound live) (r : Rebind) :
    it.rebind live r = it'.rebind live r := by
  have h' : it'.Undivided := by
    have hstill := (undivided_still (fun a _ => live a) it).mpr h
    rw [← rebound, heq] at hstill
    exact (undivided_still _ it').mp hstill
  rw [← rebind_rebound live r it h, heq, rebind_rebound live r it' h']

end Iter

namespace Index

variable {ix : Index} {t : TypeCode} {withSubtypes : Bool} {it : Iter TypeCode}
  {d : Definition} {us : List TypeCode}

theorem undivided_leafIter (d : Definition) (u : TypeCode) (now : Snapshot) :
    (leafIter d u now).Undivided := by
  unfold leafIter
  split <;> exact trivial

/-- What an assembled iterator will be bound to does not depend on when it was assembled. -/
theorem rebound_assemble_eq (d : Definition) (now live : TypeCode → Snapshot) (hus : us ≠ []) :
    (assemble d now us).rebound live = (assemble d live us).rebound live := by
  have hleaf : ∀ t, (leafIter d t (now t)).rebound live = (leafIter d t (live t)).rebound live := by
    intro t
    unfold leafIter
    split <;> rfl
  rcases eq_singleton_or_two_le hus with ⟨t, rfl⟩ | htwo
  · exact hleaf t
  · rw [assemble_of_two htwo, assemble_of_two htwo]
    cases d.kind with
    | sorted => exact congrArg Iter.merge (rebound_startMerge d now live us)
    | set | bag =>
        simp only [Iter.rebound, Iter.still_ofList, List.map_map, Function.comp_def]
        simp only [Iter.rebound] at hleaf
        simp only [hleaf]

/-! ### A leaf and a target -/

/-- What a leaf passes over on the way to a target: the structures whose keys are less, or in a bag
those whose ids are. -/
def passes (d : Definition) (target fs : FeatureStructure) : Bool :=
  match d.kind with
  | .sorted | .set => d.comparator.compare fs target == .lt
  | .bag => fs.id.val < target.id.val

theorem passes_of_ne_bag (hkind : d.kind ≠ .bag) (target fs : FeatureStructure) :
    passes d target fs = (d.comparator.compare fs target == .lt) := by
  rw [passes]
  split <;> first | rfl | contradiction

/-- Where keys or ids alone tell structures apart, what is passed over is what comes first. -/
theorem passes_of_ne_sorted (hkind : d.kind ≠ .sorted) (target fs : FeatureStructure) :
    passes d target fs = (leafOrder d fs target == .lt) := by
  rw [passes, leafOrder]
  cases hd : d.kind with
  | sorted => exact absurd hd hkind
  | set => rfl
  | bag => exact (Comparator.compareIds_beq_lt fs target).symm

/-- **Whatever the target is, what is passed over comes first in every leaf.** -/
theorem cuts_passes (h : ix.Sound) (target : FeatureStructure) (u : TypeCode) :
    Cuts (passes ix.definition target) (ix.snapshot u).elements := by
  have hasc := ascending_snapshot h u
  by_cases hkind : ix.definition.kind = .sorted
  · rw [leafOrder] at hasc
    simp only [hkind] at hasc
    rw [funext (passes_of_ne_bag (by rw [hkind]; decide) target)]
    exact (Merge.lower_key _ target).cuts hasc
  · rw [funext (passes_of_ne_sorted hkind target)]
    exact (lower_lt target).cuts hasc

/-- **A leaf that moves to a target stands right behind what it passes over.** -/
theorem stands_leafIter_toward (h : ix.Sound) (target : FeatureStructure) (u : TypeCode)
    (now : Snapshot) :
    ((leafIter ix.definition u now).rebind ix.snapshot (.toward target)).Stands
      (ListCursor.after (ix.snapshot u).elements (passes ix.definition target)) := by
  -- bisection finds the cut, whatever the seam is
  have hsplit := Bisection.splitPoint_eq_countP (cuts_passes h target u) (ix.snapshot u).seam
  have hseek := congrArg (ListCursor.seek ⟨(ix.snapshot u).elements, none⟩) hsplit
  unfold leafIter passes at *
  cases hkind : ix.definition.kind <;> simp only [hkind] at hseek ⊢ <;>
    exact ⟨hseek, ListCursor.inRange_seek _ _⟩

/-! ### What an index has handed out -/

/-- An iterator over a type that an index has handed out, and the index as it is now. In between the
iterator was moved and rebound, and the index was changed. -/
inductive Handed (t : TypeCode) (withSubtypes : Bool) : Index → Iter TypeCode → Prop
  /-- The index hands out an iterator. -/
  | iterate {ix : Index} {it : Iter TypeCode} (h : ix.Reachable)
      (hok : ix.iterate t withSubtypes = .ok it) : Handed t withSubtypes ix it
  | step {ix : Index} {it : Iter TypeCode} (h : Handed t withSubtypes ix it) (m : Step) :
      Handed t withSubtypes ix (it.step m)
  | rebind {ix : Index} {it : Iter TypeCode} (h : Handed t withSubtypes ix it) (r : Rebind) :
      Handed t withSubtypes ix (it.rebind ix.snapshot r)
  | change {ix : Index} {it : Iter TypeCode} (h : Handed t withSubtypes ix it) (c : Change) :
      Handed t withSubtypes (c.apply ix) it

namespace Handed

theorem sound (h : Handed t withSubtypes ix it) : ix.Sound ∧ t ∈ ix.types := by
  induction h with
  | iterate h hok => exact ⟨h.sound, mem_types_of_iterate hok⟩
  | step _ _ ih | rebind _ _ ih => exact ih
  | change _ c ih => exact ⟨sound_change ih.1 c, by rw [types_apply ih.1]; exact ih.2⟩

theorem asked_ne_nil (h : Handed t withSubtypes ix it) : asked ix.system t withSubtypes ≠ [] := by
  obtain ⟨rest, hasked, -⟩ := exists_asked h.sound.1 h.sound.2 withSubtypes
  rw [hasked]
  exact List.cons_ne_nil _ _

/-- **What is handed out stays put together from the leaves of the asked types.** -/
theorem rebound (h : Handed t withSubtypes ix it) (live : TypeCode → Snapshot) :
    it.rebound live =
      (assemble ix.definition live (asked ix.system t withSubtypes)).rebound live := by
  induction h with
  | @iterate ix it h hok =>
      have hne := (Handed.iterate h hok).asked_ne_nil
      rw [iterate_eq h.sound (mem_types_of_iterate hok), Except.ok.injEq] at hok
      rw [← hok]
      exact rebound_assemble_eq ix.definition ix.snapshot live hne
  | step _ m ih => exact (Iter.still_step _ m _).trans ih
  | rebind _ r ih => exact (Iter.rebound_rebind _ r live _).trans ih
  | change _ c ih =>
      rw [ih, system, system, definition_apply]

/-- No concatenation is involved in a sorted index, or where there is only one leaf. -/
theorem undivided (h : Handed t withSubtypes ix it)
    (hwhole : ix.definition.kind = .sorted ∨ (asked ix.system t withSubtypes).length = 1) :
    it.Undivided := by
  rw [← Iter.undivided_still fun u _ => ix.snapshot u]
  show (it.rebound ix.snapshot).Undivided
  rw [h.rebound, Iter.rebound, Iter.undivided_still]
  rcases eq_singleton_or_two_le h.asked_ne_nil with ⟨u, hasked⟩ | htwo
  · rw [hasked]
    exact undivided_leafIter ..
  · rw [assemble_of_two htwo, hwhole.resolve_right (by omega)]
    trivial

/-- Only from several leaves a concatenation is made. -/
theorem two_le_asked {c : Concat (Iter TypeCode)} (h : Handed t withSubtypes ix (.concat c)) :
    2 ≤ (asked ix.system t withSubtypes).length := by
  refine (eq_singleton_or_two_le h.asked_ne_nil).resolve_left fun ⟨u, hasked⟩ => ?_
  have hrebound := h.rebound ix.snapshot
  rw [hasked, assemble, leafIter, Iter.rebound, Iter.still_concat] at hrebound
  split at hrebound <;> cases hrebound

/-- A concatenation that is handed out goes over the leaves of an index that is not sorted. -/
theorem rebound_concat {c : Concat (Iter TypeCode)} (h : Handed t withSubtypes ix (.concat c))
    (live : TypeCode → Snapshot) :
    c.subs.map (Iter.rebound live) = (asked ix.system t withSubtypes).map (fun u =>
        (leafIter ix.definition u (live u)).rebound live) ∧
      c.comparator = ix.definition.comparator ∧ c.kind = ix.definition.kind ∧
      ix.definition.kind ≠ .sorted := by
  have hrebound := h.rebound live
  rw [Iter.rebound, Iter.still_concat] at hrebound
  rw [assemble_of_two h.two_le_asked] at hrebound
  cases hkind : ix.definition.kind with
  | sorted =>
      rw [hkind] at hrebound
      cases hrebound
  | set | bag =>
      simp only [hkind, Iter.rebound, Iter.still_ofList, List.map_map, Iter.concat.injEq,
        Concat.mk.injEq] at hrebound
      exact ⟨hrebound.1, hrebound.2.1, hrebound.2.2.1, by decide⟩

/-- Where no concatenation is handed out, an iterator lands where a new one would. -/
theorem rebind_eq (h : Handed t withSubtypes ix it) (hit : it.Undivided)
    (live : TypeCode → Snapshot) (r : Rebind) :
    it.rebind live r =
      (assemble ix.definition live (asked ix.system t withSubtypes)).rebind live r :=
  Iter.rebind_congr hit (h.rebound live) r

end Handed
end Index
end FeatureIndex
