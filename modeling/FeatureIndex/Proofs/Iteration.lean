import FeatureIndex.Proofs.Contents
import FeatureIndex.Proofs.Walking

/-!
# Iterating an index

`Index.iterate_eq` says in closed form what iterating gives: the leaf of the type, or the leaves of
its subtypes put together by `assemble`, in the order of the hierarchy. Whatever the leaves come to
hold, such an iterator walks their `listing`: merged in a sorted index, and one after another in the
other kinds.

A merge has to tell the structures of its leaves apart. In a `Coherent` index, where no two
structures share an id, it can.
-/

namespace FeatureIndex.Index

variable {ix : Index} {t u : TypeCode} {leaf : Leaf} {withSubtypes : Bool}

/-! ### The leaves of a type -/

/-- The types that an iteration visits. -/
def asked (ts : TypeSystem) (t : TypeCode) (withSubtypes : Bool) : List TypeCode :=
  if withSubtypes then ts.subtree t else [t]

/-- The types asked for start with the type itself and are one stretch of those of the index. -/
theorem exists_asked (h : ix.Sound) (ht : t ∈ ix.types) (withSubtypes : Bool) :
    ∃ rest, asked ix.system t withSubtypes = t :: rest ∧ t :: rest <:+: ix.types := by
  cases withSubtypes with
  | true =>
      have hsub := h.mem_types.mp ht
      obtain ⟨rest, hrest⟩ := h.committed.subtree_eq_cons (h.committed.index_lt hsub).2
      refine ⟨rest, hrest, ?_⟩
      rw [← hrest, h.types]
      exact h.committed.subtree_infix hsub
  | false =>
      obtain ⟨before, after, hsplit⟩ := List.append_of_mem ht
      exact ⟨[], rfl, before, after, by rw [hsplit]; simp⟩

/-- From the leaf of a type on, as many leaves are taken as there are types asked for. -/
theorem stretch_eq (h : ix.Sound) (ht : t ∈ ix.types) {i : Nat} (hi : ix.position? t = some i)
    (withSubtypes : Bool) : ix.stretch t withSubtypes =
      .ok ((ix.leaves.drop i).take (asked ix.system t withSubtypes).length) := by
  simp only [stretch, hi]
  cases withSubtypes with
  | true =>
      rw [if_pos rfl, h.committed.subtypes_eq (h.committed.index_lt (h.mem_types.mp ht)).2]
      rfl
  | false => rfl

theorem exists_stretch (h : ix.Sound) (ht : t ∈ ix.types) (withSubtypes : Bool) :
    ∃ ls, ix.stretch t withSubtypes = .ok ls ∧ ls.map (·.1) = asked ix.system t withSubtypes ∧
      ∀ l ∈ ls, ix.leaf? l.1 = some l.2 := by
  obtain ⟨leaf, hleaf⟩ := exists_leaf h.nodup ht
  obtain ⟨i, hi, hget⟩ := exists_position h.nodup hleaf
  obtain ⟨rest, hrest, hinfix⟩ := exists_asked h ht withSubtypes
  have hplace : ix.types.idxOf t = i := by
    obtain ⟨hlt, heq⟩ := List.getElem?_eq_some_iff.mp hget
    have hlt' : i < ix.types.length := by rw [types, List.length_map]; exact hlt
    have hit : ix.types[i] = t := by simp only [types, List.getElem_map, heq]
    rw [← hit, h.nodup.idxOf_getElem]
  refine ⟨_, stretch_eq h ht hi withSubtypes, ?_, ?_⟩
  · rw [List.map_take, List.map_drop, hrest, ← hplace]
    exact cut_stretch h.nodup hinfix
  · intro l hl
    exact (leaf?_eq_some h.nodup).mpr (List.mem_of_mem_drop (List.mem_of_mem_take hl))

theorem stretch_uncovered (ht : t ∉ ix.types) (withSubtypes : Bool) :
    ix.stretch t withSubtypes = .error (ix.notCovered t) := by
  simp only [stretch, position?_eq_none ht]

/-- **A type that is not covered cannot be iterated.** -/
theorem iterate_uncovered (ht : t ∉ ix.types) (withSubtypes : Bool) :
    ix.iterate t withSubtypes = .error (ix.notCovered t) := by
  rw [iterate, stretch_uncovered ht]
  rfl

/-- Only a covered type can be iterated. -/
theorem mem_types_of_iterate {it : Iter TypeCode} (hok : ix.iterate t withSubtypes = .ok it) :
    t ∈ ix.types := by
  by_contra ht
  rw [iterate_uncovered ht] at hok
  cases hok

theorem sizeOf_uncovered (ht : t ∉ ix.types) (withSubtypes : Bool) :
    ix.sizeOf t withSubtypes = .error (ix.notCovered t) := by
  rw [sizeOf, stretch_uncovered ht]
  rfl

/-! ### Leaves of a kind -/

/-- An iterator over the leaf of a type that holds a snapshot, at its first element. -/
def leafIter (d : Definition) (t : TypeCode) (now : Snapshot) : Iter TypeCode :=
  match d.kind with
  | .sorted | .set => .sorted (.start t d.comparator now)
  | .bag => .bag (.start t now)

theorem Housed.leafIterator_eq {d : Definition} {config : Config} {l : TypeCode × Leaf}
    (h : Housed d config l) : leafIterator l.1 l.2 = leafIter d l.1 l.2.snapshot := by
  obtain ⟨t, leaf⟩ := l
  have halike := h.alike
  rw [leafIter]
  cases hkind : d.kind <;> simp only [emptyLeaf, hkind] at halike
  all_goals
    cases leaf <;> try contradiction
  · rw [leafIterator, halike.1]
    rfl
  · rw [leafIterator, halike.1]
    rfl
  · rfl

theorem Housed.sortedCursor?_eq {d : Definition} {config : Config} {l : TypeCode × Leaf}
    (h : Housed d config l) (hkind : d.kind = .sorted) :
    sortedCursor? l.1 l.2 = some (.start l.1 d.comparator l.2.snapshot) := by
  obtain ⟨t, leaf⟩ := l
  have halike := h.alike
  simp only [emptyLeaf, hkind] at halike
  cases leaf with
  | ordered set => rw [sortedCursor?, halike.1]; rfl
  | bag b => contradiction

/-! ### Putting leaves together -/

/-- There is one leaf to put together, or there are several. -/
theorem eq_singleton_or_two_le {α : Type} {l : List α} (h : l ≠ []) :
    (∃ a, l = [a]) ∨ 2 ≤ l.length := by
  match l, h with
  | [a], _ => exact .inl ⟨a, rfl⟩
  | _ :: _ :: _, _ => exact .inr (Nat.le_add_left 2 _)

section Assemble

variable {d : Definition} {live now : TypeCode → Snapshot} {us : List TypeCode}

/-- A merge over the leaves of some types, before it selects. -/
def startMerge (d : Definition) (now : TypeCode → Snapshot) (us : List TypeCode) : Merge TypeCode :=
  ⟨us.map fun t => .start t d.comparator (now t), d.comparator, none, true⟩

/-- An iterator over the leaves of some types, at its first element. -/
def assemble (d : Definition) (now : TypeCode → Snapshot) : List TypeCode → Iter TypeCode
  | [t] => leafIter d t (now t)
  | us =>
    match d.kind with
    | .sorted => .merge ((startMerge d now us).selected true)
    | .set | .bag => Iter.ofList (us.map fun t => leafIter d t (now t)) d.comparator d.kind

/-- What the leaves of some types hold, in the order of an iteration. -/
def listing (d : Definition) (live : TypeCode → Snapshot) (us : List TypeCode) :
    List FeatureStructure :=
  match d.kind with
  | .sorted => union d.comparator.compareFully (us.map fun t => (live t).elements)
  | .set | .bag => us.flatMap fun t => (live t).elements

theorem assemble_of_two (h : 2 ≤ us.length) :
    assemble d now us =
      match d.kind with
      | .sorted => .merge ((startMerge d now us).selected true)
      | .set | .bag => Iter.ofList (us.map fun t => leafIter d t (now t)) d.comparator d.kind := by
  match us, h with
  | _ :: _ :: _, _ => rfl

theorem iterate_of_two {ls : List (TypeCode × Leaf)} (hok : ix.stretch t withSubtypes = .ok ls)
    (h : 2 ≤ ls.length) :
    ix.iterate t withSubtypes =
      match ix.definition.kind with
      | .sorted => Iter.ofSorted (ls.filterMap fun l => sortedCursor? l.1 l.2)
      | .set | .bag => .ok (Iter.ofList (ls.map fun l => leafIterator l.1 l.2)
          ix.definition.comparator ix.definition.kind) := by
  rw [iterate, hok]
  match ls, h with
  | _ :: _ :: _, _ => rfl

/-- **Iterating puts the leaves of the asked types together.** -/
theorem iterate_eq (h : ix.Sound) (ht : t ∈ ix.types) (withSubtypes : Bool) :
    ix.iterate t withSubtypes =
      .ok (assemble ix.definition ix.snapshot (asked ix.system t withSubtypes)) := by
  obtain ⟨ls, hok, hls, hleaf⟩ := exists_stretch h ht withSubtypes
  obtain ⟨rest, hrest, -⟩ := exists_asked h ht withSubtypes
  obtain ⟨config, hhoused⟩ := h.housed
  have hhoused' : ∀ l ∈ ls, Housed ix.definition config l := fun l hl =>
    hhoused l ((leaf?_eq_some h.nodup).mp (hleaf l hl))
  have hsnapshot : ∀ l ∈ ls, l.2.snapshot = ix.snapshot l.1 := fun l hl =>
    (snapshot_eq (hleaf l hl)).symm
  have hiter : ∀ l ∈ ls, leafIterator l.1 l.2 = leafIter ix.definition l.1 (ix.snapshot l.1) :=
    fun l hl => by rw [(hhoused' l hl).leafIterator_eq, hsnapshot l hl]
  have hne : ls ≠ [] := by
    rintro rfl
    rw [hrest] at hls
    cases hls
  -- a leaf alone is walked as it is, and several are put together as the kind asks for
  rcases eq_singleton_or_two_le hne with ⟨l, rfl⟩ | htwo
  · rw [iterate, hok, ← hls]
    exact congrArg Except.ok (hiter l List.mem_cons_self)
  · rw [iterate_of_two hok htwo, ← hls, assemble_of_two (by rw [List.length_map]; exact htwo)]
    cases hkind : ix.definition.kind with
    | sorted =>
        have hcursors : ls.filterMap (fun l => sortedCursor? l.1 l.2) =
            (ls.map (·.1)).map fun t => .start t ix.definition.comparator (ix.snapshot t) := by
          rw [List.map_map, ← List.filterMap_eq_map]
          apply List.filterMap_congr
          intro l hl
          rw [(hhoused' l hl).sortedCursor?_eq hkind, hsnapshot l hl]
          rfl
        simp only [hcursors]
        rw [startMerge, Iter.ofSorted, Merge.ofCursors_eq (c := ix.definition.comparator)]
        · rfl
        · simpa using hne
        · intro s hs
          obtain ⟨t, -, rfl⟩ := List.mem_map.mp hs
          rfl
    | set | bag => simp only [List.map_congr_left hiter, List.map_map, Function.comp_def]

/-! ### Walking the listing -/

/-- Whatever the leaves of some types hold can be told apart where it is merged. -/
structure Tellable (d : Definition) (live : TypeCode → Snapshot) (us : List TypeCode) : Prop where
  ascending : d.kind = .sorted →
    ∀ t ∈ us, Ascending d.comparator.compareFully (live t).elements
  separate : d.kind = .sorted →
    Separate d.comparator.compareFully (us.map fun t => (live t).elements)

theorem rebound_leafIter (d : Definition) (live : TypeCode → Snapshot) (t : TypeCode)
    (now : Snapshot) : ((leafIter d t now).rebound live).Sound ∧
      ((leafIter d t now).rebound live).bound = (live t).elements := by
  unfold leafIter
  split <;> exact ⟨trivial, rfl⟩

theorem views_startMerge (d : Definition) (now : TypeCode → Snapshot) (us : List TypeCode) :
    (startMerge d now us).views = us.map fun t => (now t).elements := by
  rw [Merge.views, startMerge, List.map_map]
  rfl

theorem sound_startMerge (h : Tellable d now us) (hkind : d.kind = .sorted) :
    (startMerge d now us).Sound := by
  refine ⟨?_, ?_, ?_⟩
  · intro s hs
    obtain ⟨t, -, rfl⟩ := List.mem_map.mp hs
    exact ⟨rfl, rfl⟩
  · intro l hl
    rw [views_startMerge] at hl
    obtain ⟨t, ht, rfl⟩ := List.mem_map.mp hl
    exact h.ascending hkind t ht
  · rw [views_startMerge]
    exact h.separate hkind

/-- What a merge will be bound to does not depend on when it was made. -/
theorem rebound_startMerge (d : Definition) (now live : TypeCode → Snapshot) (us : List TypeCode) :
    Merge.rebound live (startMerge d now us) = Merge.rebound live (startMerge d live us) := by
  rw [Merge.rebound, Merge.rebound, startMerge, startMerge, List.map_map, List.map_map]
  rfl

/-- A merge that rebinds is bound as if it was made then. -/
theorem binding_rebound_startMerge (d : Definition) (live : TypeCode → Snapshot)
    (us : List TypeCode) :
    (Merge.rebound live (startMerge d live us)).subs.map SortedCursor.binding =
      (startMerge d live us).subs.map SortedCursor.binding := by
  rw [Merge.rebound, startMerge, List.map_map, List.map_map, List.map_map]
  rfl

theorem listing_singleton (h : Tellable d live [t]) : listing d live [t] = (live t).elements := by
  unfold listing
  split
  next hkind => exact union_singleton (h.ascending hkind t List.mem_cons_self)
  all_goals exact List.flatMap_singleton ..

/-- **An assembled iterator that rebinds walks the listing** of what the leaves hold then. -/
theorem rebound_assemble (hus : us ≠ []) (h : Tellable d live us) :
    ((assemble d now us).rebound live).Sound ∧
      ((assemble d now us).rebound live).bound = listing d live us := by
  rcases eq_singleton_or_two_le hus with ⟨t, rfl⟩ | htwo
  · rw [listing_singleton h]
    exact rebound_leafIter d live t (now t)
  · rw [assemble_of_two htwo, listing]
    cases hkind : d.kind with
    | sorted =>
        have hbinding := binding_rebound_startMerge d live us
        have hsound := (sound_startMerge h hkind).congr hbinding
        have hunion := Merge.union_congr hbinding
        have hlisting : (startMerge d live us).union =
            union d.comparator.compareFully (us.map fun t => (live t).elements) := by
          rw [Merge.union, views_startMerge]
          rfl
        have hrebound : (Iter.merge ((startMerge d now us).selected true)).rebound live =
            .merge ((startMerge d live us).rebound live) :=
          congrArg Iter.merge (rebound_startMerge d now live us)
        simp only [hrebound]
        exact ⟨hsound, hunion.trans hlisting⟩
    | set | bag =>
        simp only [Iter.rebound, Iter.still_ofList, List.map_map]
        refine ⟨Iter.soundAll_iff.mpr fun it hit => ?_, ?_⟩
        · obtain ⟨t, -, rfl⟩ := List.mem_map.mp hit
          exact (rebound_leafIter d live t (now t)).1
        · rw [Iter.bound, Iter.boundAll_eq, List.flatMap_map]
          exact List.flatMap_congr fun t _ => (rebound_leafIter d live t (now t)).2

/-- **An assembled iterator stands at the first element of the listing.** -/
theorem stands_assemble (hus : us ≠ []) (h : Tellable d now us) :
    (assemble d now us).Stands (ListCursor.step .first ⟨listing d now us, none⟩) := by
  have hleaf : ∀ t, (leafIter d t (now t)).Stands
      (ListCursor.step .first ⟨(now t).elements, none⟩) := by
    intro t
    unfold leafIter
    split <;> exact ⟨rfl, ListCursor.inRange_seek _ _⟩
  rcases eq_singleton_or_two_le hus with ⟨t, rfl⟩ | htwo
  · rw [listing_singleton h]
    exact hleaf t
  · rw [assemble_of_two htwo, listing]
    cases hkind : d.kind with
    | sorted =>
        have hstands := Merge.stands_start (sound_startMerge h hkind) fun s hs => by
          obtain ⟨t, -, rfl⟩ := List.mem_map.mp hs
          rfl
        rw [Merge.union, views_startMerge] at hstands
        exact hstands
    | set | bag =>
        have hsubs : ∀ s ∈ us.map (fun t => leafIter d t (now t)), ∃ l, s.Stands l := by
          intro s hs
          obtain ⟨t, -, rfl⟩ := List.mem_map.mp hs
          exact ⟨_, hleaf t⟩
        have hstands := Iter.stands_ofList hsubs d.comparator d.kind
        have hbound : Iter.boundAll (us.map fun t => leafIter d t (now t)) =
            us.flatMap fun t => (now t).elements := by
          rw [Iter.boundAll_eq, List.flatMap_map]
          exact List.flatMap_congr fun t _ => (hleaf t).items.symm
        rw [hbound, hkind] at hstands
        exact hstands

/-- An assembled iterator is bound to what the leaves of its types hold. -/
theorem leaves_assemble (d : Definition) (now : TypeCode → Snapshot) (hus : us ≠ []) :
    (assemble d now us).leaves = us.map fun t => (t, now t) := by
  have hleaf : ∀ t, (leafIter d t (now t)).leaves = [(t, now t)] := by
    intro t
    unfold leafIter
    split <;> rfl
  rcases eq_singleton_or_two_le hus with ⟨t, rfl⟩ | htwo
  · exact hleaf t
  · rw [assemble_of_two htwo]
    cases hkind : d.kind with
    | sorted =>
        simp only [Iter.leaves, Merge.selected, startMerge, List.map_map]
        rfl
    | set | bag =>
        simp only [Iter.leaves_ofList, List.flatMap_map]
        rw [List.flatMap_congr fun t _ => hleaf t]
        exact List.flatMap_pure_eq_map ..

theorem mem_listing {fs : FeatureStructure} :
    fs ∈ listing d live us ↔ ∃ t ∈ us, fs ∈ (live t).elements := by
  unfold listing
  split
  · simp only [mem_union, List.mem_map, exists_exists_and_eq_and]
  all_goals exact List.mem_flatMap

theorem length_listing (d : Definition) (live : TypeCode → Snapshot) (us : List TypeCode) :
    (listing d live us).length = (us.map fun t => (live t).elements.length).sum := by
  unfold listing
  split
  · rw [length_union, List.map_map]
    rfl
  all_goals exact List.length_flatMap ..

theorem Tellable.ascending_listing (h : Tellable d live us) (hkind : d.kind = .sorted) :
    Ascending d.comparator.compareFully (listing d live us) := by
  simp only [listing, hkind]
  refine ascending_union (fun l hl => ?_) (h.separate hkind)
  obtain ⟨t, ht, rfl⟩ := List.mem_map.mp hl
  exact h.ascending hkind t ht

end Assemble

/-! ### Coherent indexes -/

section Coherent

variable {us : List TypeCode}

/-- **A coherent index can tell apart what any of its leaves hold.** -/
theorem Coherent.tellable (hc : ix.Coherent) (h : ix.Sound) (hus : us.Nodup) :
    Tellable ix.definition ix.snapshot us where
  ascending hkind t _ := by
    have hasc := ascending_snapshot h t
    rwa [leafOrder, hkind] at hasc
  separate _ := by
    rw [Separate, List.pairwise_map]
    refine hus.imp fun {t u} htu a ha b hb heq => htu ?_
    -- equal in key and id is one structure, which stands in the leaf of its type only
    obtain ⟨ha, hat⟩ := h.mem_snapshot.mp ha
    obtain ⟨hb, hbu⟩ := h.mem_snapshot.mp hb
    have hab := hc.eq ha hb (Comparator.compareFully_eq_eq.mp heq).2
    rw [← hat, ← hbu, hab]

theorem Coherent.nodup_listing (hc : ix.Coherent) (h : ix.Sound) (hus : us.Nodup) :
    (listing ix.definition ix.snapshot us).Nodup := by
  cases hkind : ix.definition.kind with
  | sorted => exact ((hc.tellable h hus).ascending_listing hkind).nodup
  | set | bag =>
      simp only [listing, hkind]
      exact h.nodup_flatMap hus

end Coherent

/-! ### What an iteration visits -/

theorem mem_asked (h : ix.Sound) : u ∈ asked ix.system t withSubtypes ↔
    if withSubtypes then ix.system.subsumes t u = true else u = t := by
  cases withSubtypes with
  | true => exact h.committed.mem_subtree
  | false => exact List.mem_singleton

theorem nodup_asked (h : ix.Sound) (t : TypeCode) (withSubtypes : Bool) :
    (asked ix.system t withSubtypes).Nodup := by
  cases withSubtypes with
  | true => exact h.committed.nodup_subtree t
  | false => exact List.nodup_singleton t

theorem sizeOf_eq (h : ix.Sound) (ht : t ∈ ix.types) (withSubtypes : Bool) :
    ix.sizeOf t withSubtypes =
      .ok (listing ix.definition ix.snapshot (asked ix.system t withSubtypes)).length := by
  obtain ⟨ls, hok, hls, hleaf⟩ := exists_stretch h ht withSubtypes
  have hsnapshot : ∀ l ∈ ls, l.2.elements.length = (ix.snapshot l.1).elements.length :=
    fun l hl => by rw [snapshot_eq (hleaf l hl), Leaf.snapshot_elements]
  rw [sizeOf, hok, length_listing, ← hls, List.map_map]
  show Except.ok (leavesSize ls) = _
  rw [leavesSize_eq fun l hl => (h.housed_leaf (hleaf l hl)).1, List.map_congr_left hsnapshot]
  rfl

/-- What an iteration over a type has to visit: everything that the index holds of that type, with
or without its subtypes, once each, and in the order that the kind of the index asks for. -/
structure Visits (ix : Index) (t : TypeCode) (withSubtypes : Bool)
    (visited : List FeatureStructure) : Prop where
  mem_iff : ∀ fs, fs ∈ visited ↔ fs ∈ ix.held ∧
    if withSubtypes then ix.system.subsumes t fs.type = true else fs.type = t
  nodup : visited.Nodup
  sorted : ix.kind = .sorted → Ascending ix.definition.comparator.compareFully visited
  unsorted : ix.kind ≠ .sorted →
    visited = (asked ix.system t withSubtypes).flatMap (fun u => (ix.snapshot u).elements) ∧
      ∀ u, Ascending (leafOrder ix.definition) (ix.snapshot u).elements
  size : ix.sizeOf t withSubtypes = .ok visited.length

theorem visits_listing (h : ix.Sound) (hc : ix.Coherent) (ht : t ∈ ix.types)
    (withSubtypes : Bool) : ix.Visits t withSubtypes
      (listing ix.definition ix.snapshot (asked ix.system t withSubtypes)) where
  mem_iff fs := by
    simp only [mem_listing, h.mem_snapshot, mem_asked h]
    constructor
    · rintro ⟨u, hu, hfs, rfl⟩
      exact ⟨hfs, hu⟩
    · rintro ⟨hfs, htype⟩
      exact ⟨fs.type, htype, hfs, rfl⟩
  nodup := hc.nodup_listing h (nodup_asked h t withSubtypes)
  sorted hkind := (hc.tellable h (nodup_asked h t withSubtypes)).ascending_listing hkind
  unsorted hkind := by
    refine ⟨?_, ascending_snapshot h⟩
    unfold listing
    split
    next hsorted => exact absurd hsorted hkind
    all_goals rfl
  size := sizeOf_eq h ht withSubtypes

/-- **An iterator over leaves that can be told apart walks the listing**, once it is bound anew. -/
theorem Tellable.exists_iterate (h : ix.Sound) (ht : t ∈ ix.types) {withSubtypes : Bool}
    (htell : Tellable ix.definition ix.snapshot (asked ix.system t withSubtypes)) :
    ∃ it, ix.iterate t withSubtypes = .ok it ∧ (it.rebound ix.snapshot).Sound ∧
      (it.rebound ix.snapshot).bound =
        listing ix.definition ix.snapshot (asked ix.system t withSubtypes) := by
  obtain ⟨rest, hasked, -⟩ := exists_asked h ht withSubtypes
  have hne : asked ix.system t withSubtypes ≠ [] := by rw [hasked]; exact List.cons_ne_nil _ _
  exact ⟨_, iterate_eq h ht withSubtypes, rebound_assemble hne htell⟩

theorem exists_iterate (h : ix.Sound) (hc : ix.Coherent) (ht : t ∈ ix.types)
    (withSubtypes : Bool) : ∃ it, ix.iterate t withSubtypes = .ok it ∧
      (it.rebound ix.snapshot).Sound ∧
      (it.rebound ix.snapshot).bound =
        listing ix.definition ix.snapshot (asked ix.system t withSubtypes) :=
  (hc.tellable h (nodup_asked h t withSubtypes)).exists_iterate h ht

/-- **Iterating an index visits exactly what it holds of a type.** A type is covered when the type
of the index subsumes it, and no other type can be iterated. Collecting visits everything once, in
order, and walking back from the last element visits the same in reverse. -/
theorem iterate_spec (h : ix.Reachable) (hc : ix.Coherent) (t : TypeCode) (withSubtypes : Bool) :
    (ix.covers t = true ↔ ix.system.subsumes ix.type t = true) ∧
    (ix.covers t = false →
      ix.iterate t withSubtypes = .error (.typeNotInIndex ix.label (ix.system.name t)) ∧
      ix.sizeOf t withSubtypes = .error (.typeNotInIndex ix.label (ix.system.name t))) ∧
    (ix.covers t = true → ∃ it, ix.iterate t withSubtypes = .ok it ∧
      ix.Visits t withSubtypes (it.collect ix.snapshot).1 ∧
      ∀ k, ((Iter.step .previous)^[k] (it.rebind ix.snapshot .last)).get =
        match (it.collect ix.snapshot).1.reverse[k]? with
        | some fs => .ok fs
        | none => .error .invalidIterator) := by
  have hsound := h.sound
  refine ⟨covers_iff.trans hsound.mem_types, ?_, ?_⟩
  · intro hout
    have ht : t ∉ ix.types := fun ht => by
      rw [covers_iff.mpr ht] at hout
      cases hout
    exact ⟨iterate_uncovered ht withSubtypes, sizeOf_uncovered ht withSubtypes⟩
  · intro hin
    have ht := covers_iff.mp hin
    obtain ⟨it, hok, hs, hbound⟩ := exists_iterate hsound hc ht withSubtypes
    refine ⟨it, hok, ?_, ?_⟩
    · rw [Iter.collect_eq hs, hbound]
      exact visits_listing hsound hc ht withSubtypes
    · intro k
      have hback := (Iter.stands_rebind_last hs).walks.iterate_step .previous k
      rw [Iter.collect_eq hs]
      exact hback.get.trans (ListCursor.get_iterate_previous _ k)

theorem coherent_sample : Sample.index.Coherent := by decide

/-- The index of marks, iterated with its words. -/
theorem iterate_sample : ∃ it, Sample.index.iterate ⟨1⟩ true = .ok it ∧
    Sample.index.Visits ⟨1⟩ true (it.collect Sample.index.snapshot).1 := by
  obtain ⟨it, hok, hvisits, -⟩ :=
    (iterate_spec Sample.reachable_index coherent_sample ⟨1⟩ true).2.2 (by decide)
  exact ⟨it, hok, hvisits⟩

end FeatureIndex.Index
