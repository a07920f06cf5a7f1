import FeatureIndex.Proofs.Binding
import FeatureIndex.Proofs.Index

/-!
# Generations

A leaf goes on by one generation with each change that affects it (`generation_after`). So what an
iterator is bound to can tell whether there has been such a change since, as long as the count does
not come round: `BoundAt` says after how many of the changes of an index a leaf of an iterator was
bound, and the leaf is fresh exactly when no change from then on has affected it.
-/

namespace FeatureIndex.Index

variable {ix : Index} {t : TypeCode} {leaf : Leaf} {cs : List Change}

/-! ### Generations -/

/-- How many of the changes affect the leaf of a type. -/
def affecting (ix : Index) (t : TypeCode) : List Change → Nat
  | [] => 0
  | c :: rest => (c.affects ix t).toNat + (c.apply ix).affecting t rest

/-- No change from number `n` on affects the leaf of a type. -/
def Untouched (ix : Index) (cs : List Change) (t : TypeCode) (n : Nat) : Prop :=
  ∀ i c, n ≤ i → cs[i]? = some c → c.affects (ix.after (cs.take i)) t = false

theorem after_append (ix : Index) (cs ds : List Change) :
    ix.after (cs ++ ds) = (ix.after cs).after ds := List.foldl_append ..

theorem affecting_le_length (ix : Index) (t : TypeCode) (cs : List Change) :
    ix.affecting t cs ≤ cs.length := by
  induction cs generalizing ix with
  | nil => exact Nat.le_refl 0
  | cons c rest ih =>
      have hrest := ih (c.apply ix)
      have hc := Bool.toNat_le (c.affects ix t)
      rw [affecting, List.length_cons]
      omega

theorem affecting_eq_zero : ix.affecting t cs = 0 ↔ ix.Untouched cs t 0 := by
  induction cs generalizing ix with
  | nil => exact ⟨fun _ _ _ _ => nofun, fun _ => rfl⟩
  | cons c rest ih =>
      rw [affecting, Nat.add_eq_zero_iff, ih, Bool.toNat_eq_zero]
      constructor
      · rintro ⟨hc, hrest⟩ (- | i) d - hd
        · cases hd
          exact hc
        · exact hrest i d (Nat.zero_le i) hd
      · intro h
        exact ⟨h 0 c (Nat.le_refl 0) rfl, fun i d _ hd => h (i + 1) d (Nat.zero_le _) hd⟩

theorem untouched_drop {n : Nat} :
    (ix.after (cs.take n)).Untouched (cs.drop n) t 0 ↔ ix.Untouched cs t n := by
  have hafter : ∀ i,
      (ix.after (cs.take n)).after ((cs.drop n).take i) = ix.after (cs.take (n + i)) :=
    fun i => by rw [← after_append, List.take_add]
  constructor
  · intro h i c hi hc
    obtain ⟨j, rfl⟩ := Nat.exists_eq_add_of_le hi
    rw [← hafter]
    exact h j c (Nat.zero_le j) (by rw [List.getElem?_drop]; exact hc)
  · intro h i c _ hc
    rw [hafter]
    rw [List.getElem?_drop] at hc
    exact h (n + i) c (Nat.le_add_right n i) hc

/-- **The generation of a leaf counts the changes that affect it**, and where none does, the leaf
stays the very same. -/
theorem generation_after (h : ix.Sound) (hl : ix.leaf? t = some leaf) (cs : List Change) :
    ∃ m, (ix.after cs).leaf? t = some m ∧
      m.generation = leaf.generation + UInt64.ofNat (ix.affecting t cs) ∧
      (ix.affecting t cs = 0 → m = leaf) := by
  induction cs generalizing ix leaf with
  | nil => exact ⟨leaf, hl, by simp [affecting], fun _ => rfl⟩
  | cons c rest ih =>
      -- one change, and then the rest from the index that it leaves behind
      obtain ⟨n, hn, hnext⟩ := successor_change h hl c
      obtain ⟨m, hm, hgeneration, hsame⟩ := ih (sound_change h c) hn
      refine ⟨m, hm, ?_, ?_⟩
      · rw [hgeneration, affecting, UInt64.ofNat_add, ← UInt64.add_assoc]
        cases hc : c.affects ix t with
        | true => rw [hnext.newer hc]; rfl
        | false => rw [hnext.same hc]; simp
      · intro hzero
        rw [affecting, Nat.add_eq_zero_iff, Bool.toNat_eq_zero] at hzero
        rw [hsame hzero.2, hnext.same hzero.1]

/-- Of fewer than `2 ^ 64` changes, none affects a leaf exactly when its generation is the same. -/
theorem sameGeneration_after (h : ix.Sound) (ht : t ∈ ix.types) (hlen : cs.length < 2 ^ 64) :
    ((ix.after cs).snapshot t).sameGeneration (ix.snapshot t) = true ↔ ix.affecting t cs = 0 := by
  obtain ⟨leaf, hl⟩ := exists_leaf h.nodup ht
  obtain ⟨m, hm, hgeneration, -⟩ := generation_after h hl cs
  -- the count does not come round to zero
  have hle := ix.affecting_le_length t cs
  rw [snapshot_eq hm, snapshot_eq hl, Snapshot.sameGeneration, beq_iff_eq]
  show m.generation = leaf.generation ↔ _
  rw [hgeneration, UInt64.add_eq_left, ← UInt64.toNat_inj, UInt64.toNat_ofNat']
  simp only [UInt64.toNat_zero]
  omega

theorem snapshot_after (h : ix.Sound) (ht : t ∈ ix.types) (hzero : ix.affecting t cs = 0) :
    (ix.after cs).snapshot t = ix.snapshot t := by
  obtain ⟨leaf, hl⟩ := exists_leaf h.nodup ht
  obtain ⟨m, hm, -, hsame⟩ := generation_after h hl cs
  rw [snapshot_eq hm, snapshot_eq hl, hsame hzero]

theorem untouched_iff (h : ix.Sound) (ht : t ∈ ix.types) (hlen : cs.length < 2 ^ 64) (n : Nat) :
    ((ix.after cs).snapshot t).sameGeneration ((ix.after (cs.take n)).snapshot t) = true ↔
      ix.Untouched cs t n := by
  have hsound := sound_after h (cs.take n)
  have ht' : t ∈ (ix.after (cs.take n)).types := by rwa [types_after h]
  have hdrop : (cs.drop n).length < 2 ^ 64 := by rw [List.length_drop]; omega
  have hgeneration := sameGeneration_after hsound ht' hdrop
  rwa [affecting_eq_zero, untouched_drop, ← after_append, List.take_append_drop] at hgeneration

theorem snapshot_of_untouched (h : ix.Sound) (ht : t ∈ ix.types) {n : Nat}
    (hn : ix.Untouched cs t n) : (ix.after cs).snapshot t = (ix.after (cs.take n)).snapshot t := by
  have ht' : t ∈ (ix.after (cs.take n)).types := by rwa [types_after h]
  have hsame := snapshot_after (sound_after h (cs.take n)) ht'
    (affecting_eq_zero.mpr (untouched_drop.mpr hn))
  rwa [← after_append, List.take_append_drop] at hsame

/-! ### When a leaf was bound -/

/-- What a leaf is bound to is what the index held for it at a time. -/
def BoundAt (ix : Index) (cs : List Change) (l : TypeCode × Snapshot) (n : Nat) : Prop :=
  n ≤ cs.length ∧ l.1 ∈ ix.types ∧ l.2 = (ix.after (cs.take n)).snapshot l.1

variable {times : List Nat}

theorem BoundAt.change {l : TypeCode × Snapshot} {n : Nat} (h : ix.BoundAt cs l n) (c : Change) :
    ix.BoundAt (cs ++ [c]) l n := by
  obtain ⟨hn, ht, hl⟩ := h
  refine ⟨?_, ht, ?_⟩
  · rw [List.length_append]
    omega
  · rw [List.take_append_of_le_length hn]
    exact hl

/-- The leaves that a rebinding binds anew are bound now, the others when they were. -/
theorem forall₂_settled {ps : List ((TypeCode × Snapshot) × Bool)}
    (h : List.Forall₂ (ix.BoundAt cs) (ps.map (·.1)) times) :
    List.Forall₂ (ix.BoundAt cs) (ps.map (Iter.settled (ix.after cs).snapshot))
      (List.zipWith (fun n p => if p.2 then cs.length else n) times ps) := by
  induction ps generalizing times with
  | nil => cases h; exact .nil
  | cons p rest ih =>
      obtain ⟨l, anew⟩ := p
      cases h with
      | @cons _ n _ times hl hrest =>
          refine .cons ?_ (ih hrest)
          cases anew with
          | false => exact hl
          | true =>
              refine ⟨Nat.le_refl _, hl.2.1, ?_⟩
              show _ = (ix.after (cs.take cs.length)).snapshot _
              rw [List.take_length]
              rfl

/-- What is told of each element of a list can be told element by element beside another list. -/
theorem forall_mem_iff_forall₂ {α β : Type} {R Q : α → β → Prop} {P : α → Prop} {l : List α}
    {m : List β} (h : List.Forall₂ R l m) (hR : ∀ a b, R a b → (P a ↔ Q a b)) :
    (∀ a ∈ l, P a) ↔ List.Forall₂ Q l m := by
  induction h with
  | nil => exact ⟨fun _ => .nil, fun _ => nofun⟩
  | cons hab _ ih =>
      rw [List.forall_mem_cons, List.forall₂_cons]
      exact and_congr (hR _ _ hab) ih

/-- A leaf can tell whether it is untouched since it was bound. -/
theorem BoundAt.sameGeneration_iff {l : TypeCode × Snapshot} {n : Nat} (h : ix.BoundAt cs l n)
    (hix : ix.Sound) (hlen : cs.length < 2 ^ 64) :
    ((ix.after cs).snapshot l.1).sameGeneration l.2 = true ↔ ix.Untouched cs l.1 n := by
  obtain ⟨-, ht, hl⟩ := h
  rw [hl]
  exact untouched_iff hix ht hlen n

/-- A leaf that is untouched since it was bound still holds what it is bound to. -/
theorem BoundAt.snapshot_eq {l : TypeCode × Snapshot} {n : Nat} (h : ix.BoundAt cs l n)
    (hix : ix.Sound) (hn : ix.Untouched cs l.1 n) : (ix.after cs).snapshot l.1 = l.2 := by
  obtain ⟨-, ht, hl⟩ := h
  rw [hl]
  exact snapshot_of_untouched hix ht hn

variable {it : Iter TypeCode}

end FeatureIndex.Index
