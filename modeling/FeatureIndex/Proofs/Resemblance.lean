import FeatureIndex.Proofs.IterLockstep
import FeatureIndex.Proofs.Iteration

/-!
# Leaves and indexes that resemble each other

Two leaves resemble each other when they are alike, hold the same, and are some number of
generations apart. What else there is to a leaf decides nothing: where its array lies, whether a bag
has become an ordered set, or how much it holds before it does. So every change is answered alike
and leaves behind leaves that are as many generations apart (`Leaf.Resembles.insert`,
`Leaf.Resembles.erase`, `Leaf.Resembles.clear`).

The same goes for indexes, leaf by leaf (`Index.Resembles.apply`), and iterators that two such
indexes hand out are in step (`Index.Resembles.iterate`).
-/

namespace FeatureIndex

open Comparator (compareIds)
open Std (TransCmp)

variable {cmp : FeatureStructure → FeatureStructure → Ordering} {fs : FeatureStructure}
  {l l₁ l₂ : List FeatureStructure} {b₁ b₂ : Bool} {g : UInt64}

/-! ### What a change makes of a list -/

/-- Where equal structures have one id, an insertion leaves no choice. -/
theorem Insertion.unique (hsame : ∀ e ∈ l, cmp e fs = .eq → e.same fs = true)
    (h₁ : Insertion cmp fs l b₁ l₁) (h₂ : Insertion cmp fs l b₂ l₂) : b₁ = b₂ ∧ l₁ = l₂ := by
  have hnone : ∀ e ∈ l, cmp e fs = .eq → e.same fs = false → False := by
    intro e he heq hne
    rw [hsame e he heq] at hne
    cases hne
  cases h₁ with
  | replaced he heq hne => exact (hnone _ (List.mem_of_getElem? he) heq hne).elim
  | kept he heq =>
      cases h₂ with
      | kept => exact ⟨rfl, rfl⟩
      | replaced he' heq' hne => exact (hnone _ (List.mem_of_getElem? he') heq' hne).elim
      | added hout => exact absurd heq (hout _ he)
  | added hout =>
      cases h₂ with
      | kept he heq => exact absurd heq (hout _ he)
      | replaced he heq hne => exact (hnone _ (List.mem_of_getElem? he) heq hne).elim
      | added => exact ⟨rfl, rfl⟩

/-- A removal from an ascending list leaves no choice. -/
theorem Removal.unique [TransCmp cmp] (hl : Ascending cmp l) (h₁ : Removal cmp fs l b₁ l₁)
    (h₂ : Removal cmp fs l b₂ l₂) : b₁ = b₂ ∧ l₁ = l₂ := by
  have hnone : ∀ {i : Nat} {e : FeatureStructure}, l[i]? = some e → e.same fs = true →
      cmp e fs = .eq → (∀ e ∈ l, cmp e fs = .eq → e.same fs = false) → False := by
    intro i e he hsame heq hout
    rw [hout e (List.mem_of_getElem? he) heq] at hsame
    cases hsame
  cases h₁ with
  | @removed i e he heq hsame =>
      cases h₂ with
      | @removed j e' he' heq' =>
          -- both are equal to the structure, so they are equal to each other
          have hee' : cmp e e' = .eq := (TransCmp.congr_right heq').trans heq
          obtain ⟨hi, rfl⟩ := List.getElem?_eq_some_iff.mp he
          obtain ⟨hj, rfl⟩ := List.getElem?_eq_some_iff.mp he'
          rw [hl.compare_getElem hi hj, Nat.compare_eq_eq] at hee'
          exact ⟨rfl, by rw [hee']⟩
      | absent hout => exact (hnone he hsame heq hout).elim
  | absent hout =>
      cases h₂ with
      | removed he heq hsame => exact (hnone he hsame heq hout).elim
      | absent => exact ⟨rfl, rfl⟩

namespace OrderedSet

variable {s t : OrderedSet}

theorem occupant?_congr (hs : s.Sound) (ht : t.Sound) (h : s.Alike t)
    (helements : s.elements = t.elements) (fs : FeatureStructure) :
    s.occupant? fs = t.occupant? fs := by
  simp only [occupant?, place_eq hs, place_eq ht, get?, h.order, helements]

/-- **What an insertion does is decided by the order, the regime and the elements.** -/
theorem insert_congr (hs : s.Sound) (ht : t.Sound) (h : s.Alike t)
    (helements : s.elements = t.elements) (shared : Bool) (fs : FeatureStructure) :
    (s.insert shared fs).1 = (t.insert shared fs).1 ∧
      (s.insert shared fs).2.elements = (t.insert shared fs).2.elements := by
  have hoccupant := occupant?_congr hs ht h helements fs
  rw [insert, insert, hoccupant, h.2]
  split
  next i e _ =>
    split
    · split
      · exact ⟨rfl, helements⟩
      · refine ⟨rfl, ?_⟩
        show (s.writable shared).elements.set i fs = (t.writable shared).elements.set i fs
        rw [elements_writable, elements_writable, helements]
    · exact ⟨rfl, helements⟩
  next hocc =>
    -- the place is free in both, and both checks find the set in order
    have hsound := sound_insertAt hs shared ((occupant?_eq_none hs).mp (hoccupant.trans hocc))
    have htound := sound_insertAt ht shared ((occupant?_eq_none ht).mp hocc)
    simp only [check_eq_ok.mpr hsound, check_eq_ok.mpr htound]
    refine ⟨trivial, ?_⟩
    show (s.writable shared).elements.insertIdx (s.place fs) fs =
      (t.writable shared).elements.insertIdx (t.place fs) fs
    rw [elements_writable, elements_writable, place_eq hs, place_eq ht, h.order, helements]

end OrderedSet

/-! ### Leaves -/

namespace Leaf

/-- Sound leaves that are alike and hold the same, `g` generations apart. -/
structure Resembles (g : UInt64) (l m : Leaf) : Prop where
  left : l.Sound
  right : m.Sound
  alike : l.Alike m
  elements : l.elements = m.elements
  generation : l.generation = m.generation + g

theorem Alike.symm {l m : Leaf} (h : l.Alike m) : m.Alike l := by
  cases l <;> cases m <;> try contradiction
  case ordered.ordered => exact ⟨h.1.symm, h.2.symm⟩
  case bag.bag => exact Eq.symm h

namespace Resembles

variable {l l' m m' : Leaf}

theorem refl (h : l.Sound) : l.Resembles 0 l :=
  ⟨h, h, .refl l, rfl, (UInt64.add_zero _).symm⟩

/-- Leaves that are left behind by one change hold the same, as many generations apart. -/
theorem next (h : l.Resembles g m) {changed : Bool} (hl : l.Successor changed l')
    (hm : m.Successor changed m') (helements : l'.elements = m'.elements) :
    l'.Resembles g m' where
  left := hl.sound
  right := hm.sound
  alike := hl.alike.trans (h.alike.trans hm.alike.symm)
  elements := helements
  generation := by
    cases changed with
    | false =>
        rw [hl.same rfl, hm.same rfl]
        exact h.generation
    | true =>
        rw [hl.newer rfl, hm.newer rfl, h.generation]
        grind

theorem insert_congr (h : l.Resembles g m) (shared : Bool) (fs : FeatureStructure) :
    (l.insert shared fs).1 = (m.insert shared fs).1 ∧
      (l.insert shared fs).2.elements = (m.insert shared fs).2.elements := by
  obtain ⟨hleft, hright, halike, helements, -⟩ := h
  cases l <;> cases m <;> try contradiction
  case ordered.ordered s t =>
      exact OrderedSet.insert_congr hleft hright halike helements shared fs
  case bag.bag b c =>
      -- a bag never puts one structure in the place of another
      obtain ⟨changed, b', hok, -, hins⟩ := Bag.insert_spec hleft shared fs
      obtain ⟨changed', c', hok', -, hins'⟩ := Bag.insert_spec hright shared fs
      have hbags : b.elements = c.elements := helements
      rw [hbags] at hins
      obtain ⟨rfl, hafter⟩ := hins.unique
        (fun e _ heq => FeatureStructure.same_iff_compareIds.mpr heq) hins'
      simp only [Leaf.insert, hok, hok']
      exact ⟨trivial, hafter⟩

/-- **Insertions are answered alike.** -/
theorem insert (h : l.Resembles g m) (shared : Bool) (fs : FeatureStructure) :
    (l.insert shared fs).1 = (m.insert shared fs).1 ∧
      (l.insert shared fs).2.Resembles g (m.insert shared fs).2 := by
  obtain ⟨changed, l', hok, hl', -⟩ := insert_spec h.left shared fs
  obtain ⟨changed', m', hok', hm', -⟩ := insert_spec h.right shared fs
  obtain ⟨hchanged, helements⟩ := h.insert_congr shared fs
  rw [hok, hok'] at hchanged helements ⊢
  obtain rfl := Except.ok.inj hchanged
  exact ⟨rfl, h.next hl' hm' helements⟩

/-- **Removals are answered alike.** -/
theorem erase (h : l.Resembles g m) (shared : Bool) (fs : FeatureStructure) :
    (l.erase shared fs).1 = (m.erase shared fs).1 ∧
      (l.erase shared fs).2.Resembles g (m.erase shared fs).2 := by
  obtain ⟨changed, l', hok, hl', hrem⟩ := erase_spec h.left shared fs
  obtain ⟨changed', m', hok', hm', hrem'⟩ := erase_spec h.right shared fs
  rw [h.alike.order_eq, h.elements] at hrem
  obtain ⟨rfl, helements⟩ := hrem.unique h.right.ascending hrem'
  rw [hok, hok']
  exact ⟨rfl, h.next hl' hm' helements⟩

theorem clear (h : l.Resembles g m) (shared : Bool) :
    (l.clear shared).Resembles g (m.clear shared) :=
  h.next (successor_clear h.left shared) (successor_clear h.right shared) (by simp)

theorem contains (h : l.Resembles g m) (fs : FeatureStructure) :
    l.contains fs = m.contains fs := by
  rw [Bool.eq_iff_iff, contains_iff h.left, contains_iff h.right, h.alike.order_eq, h.elements]

theorem snapshot (h : l.Resembles g m) (hasc : Ascending cmp m.elements) :
    l.snapshot.Resembles cmp g m.snapshot :=
  ⟨by rw [snapshot_elements, snapshot_elements, h.elements], by rwa [snapshot_elements],
    h.generation⟩

end Resembles
end Leaf

/-! ### Indexes -/

namespace Index

/-- The order in which cursors over the leaves of an index look for places. -/
def walkOrder (d : Definition) : FeatureStructure → FeatureStructure → Ordering :=
  match d.kind with
  | .sorted | .set => d.comparator.compareFully
  | .bag => compareIds

theorem ascending_walkOrder {d : Definition} (h : Ascending (leafOrder d) l) :
    Ascending (walkOrder d) l := by
  rw [walkOrder]
  rw [leafOrder] at h
  split
  next hkind => simpa only [hkind] using h
  next hkind =>
    -- in a set the keys alone tell structures apart
    simp only [hkind] at h
    refine List.Pairwise.imp (fun hab => ?_) h
    rw [Comparator.compareFully, hab]
    rfl
  next hkind => simpa only [hkind] using h

/-- Sound indexes of one definition whose leaves resemble each other, those of a type `δ t`
generations apart. -/
structure Resembles (δ : TypeCode → UInt64) (ix jx : Index) : Prop where
  left : ix.Sound
  right : jx.Sound
  definition : ix.definition = jx.definition
  leaves : ∀ t l m, ix.leaf? t = some l → jx.leaf? t = some m → l.Resembles (δ t) m
  uncovered : ∀ t, t ∉ jx.types → δ t = 0

variable {ix jx : Index} {δ : TypeCode → UInt64} {t : TypeCode}

namespace Resembles

theorem refl (h : ix.Sound) : ix.Resembles (fun _ => 0) ix where
  left := h
  right := h
  definition := rfl
  leaves t l m hl hm := by
    obtain rfl := Option.some.inj (hl.symm.trans hm)
    exact .refl (h.housed_leaf hl).1
  uncovered _ _ := rfl

theorem system (h : ix.Resembles δ jx) : ix.system = jx.system :=
  congrArg Definition.system h.definition

theorem types (h : ix.Resembles δ jx) : ix.types = jx.types := by
  rw [h.left.types, h.right.types, h.system, Index.type, Index.type, h.definition]

theorem notCovered (h : ix.Resembles δ jx) (t : TypeCode) :
    ix.notCovered t = jx.notCovered t := by
  rw [Index.notCovered, Index.notCovered, h.system, label, label, h.definition]

theorem covers (h : ix.Resembles δ jx) (t : TypeCode) : ix.covers t = jx.covers t := by
  rw [Bool.eq_iff_iff, covers_iff, covers_iff, h.types]

theorem exists_leaves (h : ix.Resembles δ jx) (ht : t ∈ jx.types) :
    ∃ l m, ix.leaf? t = some l ∧ jx.leaf? t = some m ∧ l.Resembles (δ t) m := by
  obtain ⟨m, hm⟩ := exists_leaf h.right.nodup ht
  rw [← h.types] at ht
  obtain ⟨l, hl⟩ := exists_leaf h.left.nodup ht
  exact ⟨l, m, hl, hm, h.leaves t l m hl hm⟩

/-- Either both have a leaf of a type, and those resemble each other, or none has. -/
theorem leaf? (h : ix.Resembles δ jx) (t : TypeCode) :
    Option.Rel (Leaf.Resembles (δ t)) (ix.leaf? t) (jx.leaf? t) := by
  by_cases ht : t ∈ jx.types
  · obtain ⟨l, m, hl, hm, hleaf⟩ := h.exists_leaves ht
    rw [hl, hm]
    exact .some hleaf
  · rw [Index.leaf?, Index.leaf?, position?_eq_none ht, position?_eq_none (h.types ▸ ht)]
    exact .none

/-- The leaves of a type are replaced by leaves that resemble each other. -/
theorem setLeaf (h : ix.Resembles δ jx) {i j : Nat} {l l' m m' : Leaf}
    (hi : ix.leaves[i]? = some (t, l)) (hj : jx.leaves[j]? = some (t, m))
    (hleaf : l'.Resembles (δ t) m') (hleft : (ix.setLeaf i l').Sound)
    (hright : (jx.setLeaf j m').Sound) : (ix.setLeaf i l').Resembles δ (jx.setLeaf j m') where
  left := hleft
  right := hright
  definition := h.definition
  leaves u n n' hn hn' := by
    rw [leaf?_setLeaf h.left.nodup hi] at hn
    rw [leaf?_setLeaf h.right.nodup hj] at hn'
    split at hn
    next hut =>
      rw [if_pos hut] at hn'
      cases hn
      cases hn'
      exact hut ▸ hleaf
    next hut =>
      rw [if_neg hut] at hn'
      exact h.leaves u n n' hn hn'
  uncovered u hu := by
    rw [types_setLeaf] at hu
    exact h.uncovered u hu

/-- **Insertions are answered alike.** -/
theorem insert (h : ix.Resembles δ jx) (fs : FeatureStructure) :
    (ix.insert fs).1 = (jx.insert fs).1 ∧ (ix.insert fs).2.Resembles δ (jx.insert fs).2 := by
  have hleft := sound_insert h.left fs
  have hright := sound_insert h.right fs
  by_cases hfs : fs.builtFor jx.system = true
  · by_cases ht : fs.type ∈ jx.types
    · obtain ⟨l, m, hl, hm, hleaf⟩ := h.exists_leaves ht
      obtain ⟨i, hi, hok⟩ := insert_eq h.left (h.system ▸ hfs) hl
      obtain ⟨j, hj, hok'⟩ := insert_eq h.right hfs hm
      obtain ⟨houtcome, hnext⟩ := hleaf.insert true fs
      rw [hok] at hleft ⊢
      rw [hok'] at hright ⊢
      exact ⟨houtcome, h.setLeaf hi hj hnext hleft hright⟩
    · have ht' : fs.type ∉ ix.types := by rwa [h.types]
      simp only [Index.insert, h.system, hfs, position?_eq_none ht, position?_eq_none ht',
        h.notCovered]
      exact ⟨rfl, h⟩
  · simp only [Index.insert, h.system, hfs]
    exact ⟨rfl, h⟩

/-- **Removals are answered alike.** -/
theorem erase (h : ix.Resembles δ jx) (fs : FeatureStructure) :
    (ix.erase fs).1 = (jx.erase fs).1 ∧ (ix.erase fs).2.Resembles δ (jx.erase fs).2 := by
  have hleft := sound_erase h.left fs
  have hright := sound_erase h.right fs
  by_cases ht : fs.type ∈ jx.types
  · obtain ⟨l, m, hl, hm, hleaf⟩ := h.exists_leaves ht
    obtain ⟨i, hi, hok⟩ := erase_eq h.left hl
    obtain ⟨j, hj, hok'⟩ := erase_eq h.right hm
    obtain ⟨hremoved, hnext⟩ := hleaf.erase true fs
    rw [hok] at hleft ⊢
    rw [hok'] at hright ⊢
    exact ⟨hremoved, h.setLeaf hi hj hnext hleft hright⟩
  · have ht' : fs.type ∉ ix.types := by rwa [h.types]
    rw [erase_uncovered ht, erase_uncovered ht']
    exact ⟨rfl, h⟩

theorem clear (h : ix.Resembles δ jx) : ix.clear.Resembles δ jx.clear where
  left := sound_clear h.left
  right := sound_clear h.right
  definition := h.definition
  leaves t l m hl hm := by
    rw [leaf?_clear] at hl hm
    obtain ⟨l', hl', rfl⟩ := Option.map_eq_some_iff.mp hl
    obtain ⟨m', hm', rfl⟩ := Option.map_eq_some_iff.mp hm
    exact (h.leaves t l' m' hl' hm').clear true
  uncovered t ht := by
    rw [types_clear] at ht
    exact h.uncovered t ht

/-- **A change keeps the resemblance.** -/
theorem apply (h : ix.Resembles δ jx) (c : Change) : (c.apply ix).Resembles δ (c.apply jx) := by
  cases c with
  | insert fs => exact (h.insert fs).2
  | erase fs => exact (h.erase fs).2
  | clear => exact h.clear

/-! ### What can be read -/

theorem contains (h : ix.Resembles δ jx) (fs : FeatureStructure) :
    ix.contains fs = jx.contains fs := by
  have hleaf := h.leaf? fs.type
  rw [Index.contains, Index.contains]
  generalize ix.leaf? fs.type = x, jx.leaf? fs.type = y at hleaf
  cases hleaf with
  | none => rfl
  | some hl => exact hl.contains fs

theorem snapshot (h : ix.Resembles δ jx) (t : TypeCode) :
    (ix.snapshot t).Resembles (walkOrder jx.definition) (δ t) (jx.snapshot t) := by
  have hasc := ascending_walkOrder (ascending_snapshot h.right t)
  have hleaf := h.leaf? t
  rw [Index.snapshot] at hasc ⊢
  rw [Index.snapshot]
  cases hm : jx.leaf? t with
  | none =>
      -- there is nothing to tell apart in a type without a leaf
      have ht : t ∉ jx.types := fun ht => by
        obtain ⟨m, hm'⟩ := exists_leaf h.right.nodup ht
        rw [hm] at hm'
        cases hm'
      rw [hm] at hleaf
      generalize ix.leaf? t = x at hleaf
      cases hleaf
      rw [h.uncovered t ht]
      exact .refl List.Pairwise.nil
  | some m =>
      rw [hm] at hleaf hasc
      generalize ix.leaf? t = x at hleaf
      cases hleaf with
      | some hl =>
          rw [Option.map_some, Option.getD_some, Leaf.snapshot_elements] at hasc
          exact hl.snapshot hasc

theorem size (h : ix.Resembles δ jx) : ix.size = jx.size := by
  rw [h.left.size_eq, h.right.size_eq, h.left.held_eq, h.right.held_eq, h.types]
  exact congrArg List.length (List.flatMap_congr fun t _ => (h.snapshot t).elements)

theorem sizeOf (h : ix.Resembles δ jx) (t : TypeCode) (withSubtypes : Bool) :
    ix.sizeOf t withSubtypes = jx.sizeOf t withSubtypes := by
  by_cases ht : t ∈ jx.types
  · rw [sizeOf_eq h.left (h.types ▸ ht), sizeOf_eq h.right ht, length_listing, length_listing,
      h.system]
    simp only [(h.snapshot _).elements]
  · rw [sizeOf_uncovered ht, sizeOf_uncovered (h.types ▸ ht), h.notCovered]

end Resembles

/-! ### Iterators over indexes that resemble each other -/

/-- The leaves of one type go together. -/
def pairing (d : Definition) (δ : TypeCode → UInt64) : Pairing TypeCode TypeCode :=
  fun cmp g t u => t = u ∧ g = δ u ∧ cmp = walkOrder d

theorem inStep_assemble {d : Definition} {now now' : TypeCode → Snapshot}
    (h : ∀ t, (now t).Resembles (walkOrder d) (δ t) (now' t)) {us : List TypeCode}
    (hus : us ≠ []) : (assemble d now us).InStep (pairing d δ) (assemble d now' us) := by
  have hsorted : d.kind ≠ .bag → ∀ t, SortedCursor.InStep (pairing d δ)
      (.start t d.comparator (now t)) (.start t d.comparator (now' t)) := by
    intro hkind t
    have horder : walkOrder d = d.comparator.compareFully := by
      rw [walkOrder]
      split <;> trivial
    have ht := h t
    rw [horder] at ht
    exact .start ⟨rfl, rfl, horder.symm⟩ ht
  have hleaf : ∀ t, (leafIter d t (now t)).InStep (pairing d δ) (leafIter d t (now' t)) := by
    intro t
    rw [leafIter, leafIter]
    cases hkind : d.kind with
    | sorted | set =>
        exact .of_inStepTo (d := 1) (.sorted (hsorted (by rw [hkind]; exact nofun) t))
    | bag =>
        have horder : walkOrder d = compareIds := by simp only [walkOrder, hkind]
        have ht := h t
        rw [horder] at ht
        exact .of_inStepTo (d := 1) (.bag (.start ⟨rfl, rfl, horder.symm⟩ ht))
  rcases eq_singleton_or_two_le hus with ⟨t, rfl⟩ | htwo
  · exact hleaf t
  · have hleaves : List.Forall₂ (Iter.InStep (pairing d δ)) (us.map fun t => leafIter d t (now t))
        (us.map fun t => leafIter d t (now' t)) := by
      rw [List.forall₂_map_left_iff, List.forall₂_map_right_iff]
      exact List.forall₂_same.mpr fun t _ => hleaf t
    rw [assemble_of_two htwo, assemble_of_two htwo]
    cases hkind : d.kind with
    | sorted =>
        have hstart : Merge.InStep (pairing d δ) (startMerge d now us) (startMerge d now' us) := by
          refine ⟨?_, rfl, rfl, rfl⟩
          rw [startMerge, startMerge, List.forall₂_map_left_iff, List.forall₂_map_right_iff]
          exact List.forall₂_same.mpr fun t _ => hsorted (by rw [hkind]; exact nofun) t
        exact .of_inStepTo (d := 1) (.merge hstart.selectLeast)
    | set | bag => exact .ofList hleaves d.comparator _

namespace Resembles

theorem live (h : ix.Resembles δ jx) :
    (pairing jx.definition δ).Live ix.snapshot jx.snapshot := by
  rintro _ _ t _ ⟨rfl, rfl, rfl⟩
  exact h.snapshot t

/-- **Indexes that resemble each other hand out iterators in step.** -/
theorem iterate (h : ix.Resembles δ jx) (t : TypeCode) (withSubtypes : Bool) :
    OutcomeRel (Iter.InStep (pairing jx.definition δ)) (ix.iterate t withSubtypes)
      (jx.iterate t withSubtypes) := by
  by_cases ht : t ∈ jx.types
  · obtain ⟨rest, hasked, -⟩ := exists_asked h.right ht withSubtypes
    have hne : asked jx.system t withSubtypes ≠ [] := by rw [hasked]; exact List.cons_ne_nil _ _
    rw [iterate_eq h.left (h.types ▸ ht), iterate_eq h.right ht, h.definition, h.system]
    exact .ok (inStep_assemble h.snapshot hne)
  · rw [iterate_uncovered ht, iterate_uncovered (h.types ▸ ht), h.notCovered]
    exact .error _

end Resembles
end Index
end FeatureIndex
