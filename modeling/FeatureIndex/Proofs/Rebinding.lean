import FeatureIndex.Proofs.Generations

/-!
# How far a rebinding reaches

A rebinding to an end binds every leaf of an iterator anew, and so does a rebinding to a target
where no concatenation is involved. A concatenation stops at the first of its iterators that then
stands at a match, and the leaves behind that one keep the contents that they were bound to before.

`Reaches` says that nothing is lost by this: each leaf that is passed over is untouched since it was
bound. Exactly then the iterator is fresh (`isFresh_rebind_iff`), with every leaf bound to what the
index holds now.
-/

namespace FeatureIndex

namespace Iter

variable {σ : Type} {live : σ → Snapshot} {r : Rebind} {it : Iter σ}

/-! ### Which leaves are bound anew -/

/-- No concatenation is involved in the iterator. -/
def Undivided : Iter σ → Prop
  | sorted _ | bag _ | merge _ => True
  | concat _ => False
  | filtered ⟨base, _⟩ => Undivided base

/-- A rebinding to an end, or of an iterator without concatenations. -/
def Thorough (r : Rebind) (it : Iter σ) : Prop :=
  (∀ target, r ≠ .toward target) ∨ it.Undivided

theorem markedTo_of_thorough {d : Nat} (hd : it.depth ≤ d) (h : it.Thorough r) :
    ∀ p ∈ markedTo live d r it, p.2 = true := by
  have hall : ∀ ls : List (σ × Snapshot), ∀ p ∈ ls.map (fun l => (l, true)), p.2 = true := by
    intro ls p hp
    obtain ⟨l, -, rfl⟩ := List.mem_map.mp hp
    rfl
  induction d generalizing it with
  | zero =>
      rcases it with c | c | m | ⟨subs, comparator, kind, current⟩ | ⟨base, accepts⟩ <;> cases hd
  | succ d ih =>
      cases it with
      | sorted c => exact hall _
      | bag c => exact hall _
      | merge m => exact hall _
      | concat c =>
          obtain ⟨subs, comparator, kind, current⟩ := c
          have hend := h.resolve_right id
          rw [markedTo, Concat.reached_of_end hend, List.take_length, List.drop_length,
            List.flatMap_nil, List.append_nil]
          intro p hp
          obtain ⟨s, hs, hp⟩ := List.mem_flatMap.mp hp
          have hdepth := Nat.le_trans (depth_le_depthAll hs) (Nat.le_of_succ_le_succ hd)
          exact ih hdepth (.inl hend) p hp
      | filtered f =>
          obtain ⟨base, accepts⟩ := f
          have hbase : ∀ p ∈ markedTo live d r base, p.2 = true :=
            ih (Nat.le_of_succ_le_succ hd) h
          exact hbase

/-- **A thorough rebinding binds every leaf anew.** -/
theorem marked_of_thorough (h : it.Thorough r) : ∀ p ∈ it.marked live r, p.2 = true :=
  markedTo_of_thorough (Nat.le_refl _) h

/-- A rebinding leaves an iterator fresh if the leaves that it passes over are. -/
theorem isFresh_rebind : (it.rebind live r).isFresh live = true ↔
    ∀ p ∈ it.marked live r, p.2 = true ∨ (live p.1.1).sameGeneration p.1.2 = true := by
  rw [isFresh, leaves_rebind, List.all_map, List.all_eq_true]
  refine forall₂_congr fun p _ => ?_
  obtain ⟨l, anew⟩ := p
  cases anew with
  | false => simp [settled]
  | true => simp [settled, Snapshot.sameGeneration]

end Iter

namespace Index

variable {ix : Index} {cs : List Change} {it : Iter TypeCode} {times : List Nat} {r : Rebind}

/-- Each leaf that a rebinding of an iterator passes over is untouched since it was bound; `times`
gives, for each leaf, after how many of the changes that was. -/
def Reaches (ix : Index) (cs : List Change) (it : Iter TypeCode) (times : List Nat) (r : Rebind) :
    Prop :=
  List.Forall₂ (fun p n => p.2 = true ∨ ix.Untouched cs p.1.1 n)
    (it.marked (ix.after cs).snapshot r) times

theorem forall₂_marked (hbound : List.Forall₂ (ix.BoundAt cs) it.leaves times)
    (live : TypeCode → Snapshot) (r : Rebind) :
    List.Forall₂ (fun p n => ix.BoundAt cs p.1 n) (it.marked live r) times := by
  rw [← Iter.map_fst_marked live r it] at hbound
  exact List.forall₂_map_left_iff.mp hbound

/-- A thorough rebinding passes over nothing. -/
theorem reaches_of_thorough (hbound : List.Forall₂ (ix.BoundAt cs) it.leaves times)
    (h : it.Thorough r) : ix.Reaches cs it times r := by
  have hmarked := (List.forall₂_and_left _ _).mpr
    ⟨Iter.marked_of_thorough h, forall₂_marked hbound (ix.after cs).snapshot r⟩
  exact hmarked.imp fun _ _ hp => .inl hp.1

/-- **A rebinding leaves an iterator fresh exactly when it reaches all that has changed.** -/
theorem isFresh_rebind_iff (hix : ix.Sound)
    (hbound : List.Forall₂ (ix.BoundAt cs) it.leaves times) (hlen : cs.length < 2 ^ 64) :
    (it.rebind (ix.after cs).snapshot r).isFresh (ix.after cs).snapshot = true ↔
      ix.Reaches cs it times r := by
  rw [Iter.isFresh_rebind]
  exact forall_mem_iff_forall₂ (forall₂_marked hbound _ r) fun _ _ hl =>
    or_congr_right (hl.sameGeneration_iff hix hlen)

/-- A rebinding that reaches all that has changed leaves every leaf bound to what it holds now. -/
theorem Reaches.live (h : ix.Reaches cs it times r) (hix : ix.Sound)
    (hbound : List.Forall₂ (ix.BoundAt cs) it.leaves times) :
    ∀ l ∈ (it.rebind (ix.after cs).snapshot r).leaves, (ix.after cs).snapshot l.1 = l.2 := by
  have hlive : List.Forall₂ (fun p n => (p.2 = true ∨ (ix.after cs).snapshot p.1.1 = p.1.2) ∧
      ix.BoundAt cs p.1 n) (it.marked (ix.after cs).snapshot r) times :=
    h.mp (fun _ _ hp hl => ⟨hp.imp id (hl.snapshot_eq hix), hl⟩) (forall₂_marked hbound _ r)
  rw [Iter.leaves_rebind, List.forall_mem_map]
  intro p hp
  rcases ((List.forall₂_and_left _ _).mp hlive).1 p hp with hnew | hold
  · rw [Iter.settled, if_pos hnew]
  · rw [Iter.settled]
    split
    · rfl
    · exact hold

end Index
end FeatureIndex
