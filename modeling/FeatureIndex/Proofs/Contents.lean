import FeatureIndex.Proofs.Index

/-!
# What indexes hold

`Index.held` lists the structures of all leaves. In a sound index each of them stands once, in the
leaf of its type (`Sound.mem_held`, `Sound.nodup_held`), and every leaf ascends in the order of its
kind.

In an index that is not a set, insertions and removals do to what is held what they do to a set of
structures, as long as those in play are known by their ids: `mem_held_insert`, `mem_held_erase` and
`held_clear`.
-/

namespace FeatureIndex.Index

variable {ix : Index} {t u : TypeCode} {leaf : Leaf} {fs : FeatureStructure}

/-! ### The order of leaves -/

/-- The order in which a leaf keeps its structures. -/
def leafOrder (d : Definition) : FeatureStructure → FeatureStructure → Ordering :=
  match d.kind with
  | .sorted => d.comparator.compareFully
  | .set => d.comparator.compare
  | .bag => Comparator.compareIds

instance (d : Definition) : Std.TransCmp (leafOrder d) := by
  unfold leafOrder
  split <;> infer_instance

theorem leafOrder_of_set {d : Definition} (hkind : d.kind = .set) :
    leafOrder d = d.comparator.compare := by
  simp only [leafOrder, hkind]

theorem Housed.order_eq {d : Definition} {config : Config} {l : TypeCode × Leaf}
    (h : Housed d config l) : l.2.order = leafOrder d := by
  rw [h.alike.order_eq, emptyLeaf, leafOrder]
  cases d.kind <;> rfl

/-- Only a set takes structures of different ids for equal. -/
theorem id_eq_of_leafOrder {d : Definition} (hkind : d.kind ≠ .set) {a b : FeatureStructure}
    (h : leafOrder d a b = .eq) : a.id.val = b.id.val := by
  cases hd : d.kind with
  | sorted =>
      simp only [leafOrder, hd] at h
      exact (Comparator.compareFully_eq_eq.mp h).2
  | set => exact absurd hd hkind
  | bag =>
      simp only [leafOrder, hd] at h
      exact Comparator.compareIds_eq_eq.mp h

theorem Sound.order_eq (h : ix.Sound) (hl : ix.leaf? t = some leaf) :
    leaf.order = leafOrder ix.definition := by
  obtain ⟨config, hhoused⟩ := h.housed
  exact (hhoused _ ((leaf?_eq_some h.nodup).mp hl)).order_eq

/-- Every leaf ascends in the order of its kind. -/
theorem ascending_snapshot (h : ix.Sound) (t : TypeCode) :
    Ascending (leafOrder ix.definition) (ix.snapshot t).elements := by
  cases hl : ix.leaf? t with
  | none =>
      rw [snapshot, hl]
      exact List.Pairwise.nil
  | some leaf =>
      rw [snapshot_eq hl, Leaf.snapshot_elements, ← h.order_eq hl]
      exact (h.housed_leaf hl).1.ascending

/-! ### The structures of an index -/

/-- The structures that the index holds. -/
def held (ix : Index) : List FeatureStructure := ix.leaves.flatMap fun l => l.2.elements

/-- Each structure is held in the leaf of its type. -/
theorem Sound.mem_held (h : ix.Sound) :
    fs ∈ ix.held ↔ ∃ leaf, ix.leaf? fs.type = some leaf ∧ fs ∈ leaf.elements := by
  obtain ⟨config, hhoused⟩ := h.housed
  rw [held, List.mem_flatMap]
  constructor
  · rintro ⟨⟨t, leaf⟩, hl, hfs⟩
    obtain rfl := ((hhoused _ hl).home fs hfs).1
    exact ⟨leaf, (leaf?_eq_some h.nodup).mpr hl, hfs⟩
  · rintro ⟨leaf, hl, hfs⟩
    exact ⟨_, (leaf?_eq_some h.nodup).mp hl, hfs⟩

/-- The leaf of a type holds what the index holds of exactly that type. -/
theorem Sound.mem_snapshot (h : ix.Sound) :
    fs ∈ (ix.snapshot t).elements ↔ fs ∈ ix.held ∧ fs.type = t := by
  rw [h.mem_held]
  constructor
  · intro hfs
    cases hl : ix.leaf? t with
    | none =>
        rw [snapshot, hl] at hfs
        cases hfs
    | some leaf =>
        rw [snapshot_eq hl, Leaf.snapshot_elements] at hfs
        obtain rfl := ((h.housed_leaf hl).2 fs hfs).1
        exact ⟨⟨leaf, hl, hfs⟩, rfl⟩
  · rintro ⟨⟨leaf, hl, hfs⟩, rfl⟩
    rw [snapshot_eq hl, Leaf.snapshot_elements]
    exact hfs

/-- The structures of an index, type by type. -/
theorem Sound.held_eq (h : ix.Sound) :
    ix.held = ix.types.flatMap fun t => (ix.snapshot t).elements := by
  rw [held, Index.types, List.flatMap_map]
  refine List.flatMap_congr fun l hl => ?_
  rw [snapshot_eq ((leaf?_eq_some h.nodup).mpr hl), Leaf.snapshot_elements]

/-- No structure stands in a leaf twice, or in two leaves. -/
theorem Sound.nodup_flatMap (h : ix.Sound) {us : List TypeCode} (hus : us.Nodup) :
    (us.flatMap fun t => (ix.snapshot t).elements).Nodup := by
  rw [List.nodup_flatMap]
  refine ⟨fun t _ => (ascending_snapshot h t).nodup, hus.imp fun {t u} htu fs hft hfu => htu ?_⟩
  rw [← (h.mem_snapshot.mp hft).2, (h.mem_snapshot.mp hfu).2]

theorem Sound.nodup_held (h : ix.Sound) : ix.held.Nodup := by
  rw [h.held_eq]
  exact h.nodup_flatMap h.nodup

theorem Sound.types_of_held (h : ix.Sound) (hfs : fs ∈ ix.held) : fs.type ∈ ix.types := by
  obtain ⟨leaf, hl, -⟩ := h.mem_held.mp hfs
  exact List.mem_map_of_mem ((leaf?_eq_some h.nodup).mp hl)

theorem leavesSize_eq {ls : List (TypeCode × Leaf)} (h : ∀ l ∈ ls, l.2.Sound) :
    leavesSize ls = (ls.map fun l => l.2.elements.length).sum := by
  induction ls with
  | nil => rfl
  | cons l rest ih =>
      obtain ⟨hl, hrest⟩ := List.forall_mem_cons.mp h
      rw [leavesSize, ih hrest, List.map_cons, List.sum_cons, hl.size_eq]

theorem Sound.size_eq (h : ix.Sound) : ix.size = ix.held.length := by
  obtain ⟨config, hhoused⟩ := h.housed
  rw [size, leavesSize_eq fun l hl => (hhoused l hl).sound, held, List.length_flatMap]

/-! ### Structures known by their ids -/

/-- No two structures that the index holds share an id. -/
def Coherent (ix : Index) : Prop := (ix.held.map fun fs => fs.id).Nodup

instance (ix : Index) : Decidable ix.Coherent := inferInstanceAs (Decidable (List.Nodup _))

theorem Coherent.eq (h : ix.Coherent) {a b : FeatureStructure} (ha : a ∈ ix.held)
    (hb : b ∈ ix.held) (hid : a.id.val = b.id.val) : a = b :=
  List.inj_on_of_nodup_map h ha hb (StructureId.ext hid)

theorem Sound.coherent (h : ix.Sound)
    (hid : ∀ a ∈ ix.held, ∀ b ∈ ix.held, a.id.val = b.id.val → a = b) : ix.Coherent :=
  h.nodup_held.map_on fun a ha b hb hab => hid a ha b hb (congrArg StructureId.val hab)

section Changes

/-- What a leaf compares equal to a structure is that structure. -/
theorem Sound.order_eq_eq (h : ix.Sound) (hkind : ix.kind ≠ .set)
    (hl : ix.leaf? fs.type = some leaf)
    (hid : ∀ e ∈ ix.held, e.id.val = fs.id.val → e = fs) :
    ∀ e ∈ leaf.elements, leaf.order e fs = .eq ↔ e = fs := by
  intro e he
  rw [h.order_eq hl]
  constructor
  · intro heq
    have hheld : e ∈ ix.held := h.mem_held.mpr ⟨leaf, by
      rw [((h.housed_leaf hl).2 e he).1]
      exact hl, he⟩
    exact hid e hheld (id_eq_of_leafOrder hkind heq)
  · rintro rfl
    exact Std.ReflCmp.compare_self

theorem mem_held_setLeaf (h : ix.Sound) {i : Nat} {m : Leaf} (hi : ix.leaves[i]? = some (t, leaf))
    (hm : (ix.setLeaf i m).Sound) :
    fs ∈ (ix.setLeaf i m).held ↔ if fs.type = t then fs ∈ m.elements else fs ∈ ix.held := by
  rw [hm.mem_held, leaf?_setLeaf h.nodup hi, h.mem_held]
  split
  · simp
  · rfl

/-- A structure is held exactly when the leaf of its type has it. -/
theorem contains_iff (h : ix.Sound) (hkind : ix.kind ≠ .set)
    (hid : ∀ e ∈ ix.held, e.id.val = fs.id.val → e = fs) :
    ix.contains fs = true ↔ fs ∈ ix.held := by
  rw [contains, h.mem_held]
  cases hl : ix.leaf? fs.type with
  | none => simp
  | some leaf =>
      have heq := h.order_eq_eq hkind hl hid
      simp only [Option.any_some, Option.some.injEq, exists_eq_left',
        Leaf.contains_iff (h.housed_leaf hl).1]
      constructor
      · rintro ⟨e, he, hcmp, -⟩
        rwa [(heq e he).mp hcmp] at he
      · intro hfs
        exact ⟨fs, hfs, (heq fs hfs).mpr rfl, fs.same_self⟩

/-- **An insertion adds the structure**, and tells whether it was new. -/
theorem mem_held_insert (h : ix.Sound) (hkind : ix.kind ≠ .set)
    (hfs : fs.builtFor ix.system = true) (ht : fs.type ∈ ix.types)
    (hid : ∀ e ∈ ix.held, e.id.val = fs.id.val → e = fs) :
    (ix.insert fs).1 = .ok (decide (fs ∉ ix.held)) ∧
      ∀ a, a ∈ (ix.insert fs).2.held ↔ a = fs ∨ a ∈ ix.held := by
  obtain ⟨leaf, hl⟩ := exists_leaf h.nodup ht
  obtain ⟨i, changed, m, hi, hok, hm, hins⟩ := insert_covered h hfs hl
  have hsound := sound_insert h fs
  have heq := h.order_eq_eq hkind hl hid
  have hleaf : ∀ a : FeatureStructure, a.type = fs.type → (a ∈ leaf.elements ↔ a ∈ ix.held) :=
    fun a ha => by rw [h.mem_held, ha, hl]; simp
  rw [hok] at hsound ⊢
  constructor
  · rw [hins.changed_eq heq]
    simp only [hleaf fs rfl]
  · intro a
    rw [mem_held_setLeaf h hi hsound]
    split
    next ha => rw [hins.mem_iff heq, hleaf a ha]
    next ha =>
      refine ⟨.inr, fun hor => hor.resolve_left ?_⟩
      rintro rfl
      exact ha rfl

/-- What a removal of `fs` finds in an index: a structure of its type that stands where `fs` would,
and has its id. -/
def Meets (ix : Index) (fs e : FeatureStructure) : Prop :=
  e.type = fs.type ∧ leafOrder ix.definition e fs = .eq ∧ e.id.val = fs.id.val

theorem meets_self (ix : Index) (fs : FeatureStructure) : ix.Meets fs fs :=
  ⟨rfl, Std.ReflCmp.compare_self, rfl⟩

/-- Where a structure is known by its id, nothing else is found in its place. -/
theorem meets_iff (hid : ∀ e ∈ ix.held, e.id.val = fs.id.val → e = fs) {e : FeatureStructure}
    (he : e ∈ ix.held) : ix.Meets fs e ↔ e = fs := by
  refine ⟨fun hmeets => hid e he hmeets.2.2, ?_⟩
  rintro rfl
  exact ix.meets_self e

/-- **A removal takes out what it finds**, and nothing else. -/
theorem mem_held_erase_iff (h : ix.Sound) (fs : FeatureStructure) {a : FeatureStructure} :
    a ∈ (ix.erase fs).2.held ↔ a ∈ ix.held ∧ ¬ ix.Meets fs a := by
  by_cases ht : fs.type ∈ ix.types
  · obtain ⟨leaf, hl⟩ := exists_leaf h.nodup ht
    obtain ⟨i, changed, m, hi, hok, hm, hrem⟩ := erase_covered h hl
    have hsound := sound_erase h fs
    rw [hok] at hsound ⊢
    rw [mem_held_setLeaf h hi hsound, Meets]
    split
    next ha =>
      have hleaf : a ∈ leaf.elements ↔ a ∈ ix.held := by rw [h.mem_held, ha, hl]; simp
      rw [hrem.mem_iff (h.housed_leaf hl).1.ascending, hleaf, h.order_eq hl,
        FeatureStructure.same_iff, and_iff_right ha]
    next ha => simp [ha]
  · rw [erase_uncovered ht]
    refine ⟨fun ha => ⟨ha, fun hmeets => ht ?_⟩, And.left⟩
    rw [← hmeets.1]
    exact h.types_of_held ha

/-- **A removal takes the structure out**, and tells whether it was there. -/
theorem mem_held_erase (h : ix.Sound) (hkind : ix.kind ≠ .set)
    (hid : ∀ e ∈ ix.held, e.id.val = fs.id.val → e = fs) :
    (ix.erase fs).1 = decide (fs ∈ ix.held) ∧
      ∀ a, a ∈ (ix.erase fs).2.held ↔ a ∈ ix.held ∧ a ≠ fs := by
  constructor
  · by_cases ht : fs.type ∈ ix.types
    · obtain ⟨leaf, hl⟩ := exists_leaf h.nodup ht
      obtain ⟨i, changed, m, hi, hok, hm, hrem⟩ := erase_covered h hl
      have hleaf : fs ∈ leaf.elements ↔ fs ∈ ix.held := by rw [h.mem_held, hl]; simp
      rw [hok, hrem.changed_eq (h.order_eq_eq hkind hl hid)]
      simp only [hleaf]
    · have hout : fs ∉ ix.held := fun hfs => ht (h.types_of_held hfs)
      rw [erase_uncovered ht, decide_eq_false hout]
  · intro a
    rw [mem_held_erase_iff h]
    exact and_congr_right fun ha => not_congr (meets_iff hid ha)

@[simp] theorem held_clear (ix : Index) : ix.clear.held = [] := by
  rw [held, clear, List.flatMap_map]
  exact List.flatMap_eq_nil_iff.mpr fun l _ => l.2.elements_clear true

/-- An index starts with nothing. -/
theorem held_empty {d : Definition} {config : Config} (hok : Index.empty d config = .ok ix) :
    ix.definition = d ∧ ix.held = [] := by
  obtain ⟨covered, -, hok⟩ := bind_eq_ok.mp hok
  cases hok
  refine ⟨rfl, ?_⟩
  rw [held, List.flatMap_map]
  apply List.flatMap_eq_nil_iff.mpr
  intro t _
  unfold emptyLeaf
  split <;> rfl

end Changes
end FeatureIndex.Index
