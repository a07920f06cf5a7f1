import FeatureIndex.Index
import FeatureIndex.Proofs.Iter
import FeatureIndex.Proofs.Leaf
import FeatureIndex.Proofs.TypeSystem

/-!
# Indexes keep each structure in the leaf of its type

An index is `Reachable` when it was made over a committed type system and then changed in any way. A
reachable index is `Sound`: its leaves are those of the subtypes of its type in pre-order, each of
the form that its kind asks for, each ascending, and each holding structures of exactly its type.

A change leaves every leaf as it was or takes it to the next generation, and `Change.affects` tells
which (`successor_change`).
-/

namespace FeatureIndex.Index

/-! ### Changes -/

/-- A change of the contents of an index. -/
inductive Change where
  | insert (fs : FeatureStructure)
  | erase (fs : FeatureStructure)
  | clear

/-- The index after a change, whether it was refused or not. -/
def Change.apply (ix : Index) : Change → Index
  | insert fs => (ix.insert fs).2
  | erase fs => (ix.erase fs).2
  | clear => ix.clear

/-- Whether a change counts for the leaf of a type: an insertion or a removal there that returned
true, or any clearing. -/
def Change.affects (ix : Index) (t : TypeCode) : Change → Bool
  | insert fs =>
    fs.type == t &&
      match (ix.insert fs).1 with
      | .ok changed => changed
      | .error _ => false
  | erase fs => fs.type == t && (ix.erase fs).1
  | clear => true

/-- The index after some changes. -/
def after (ix : Index) (changes : List Change) : Index := changes.foldl Change.apply ix

/-- An index over a committed type system, after any changes. -/
inductive Reachable : Index → Prop
  | empty {d : Definition} {config : Config} {ix : Index} (hd : d.system.Committed)
      (hok : Index.empty d config = .ok ix) : Reachable ix
  | change {ix : Index} (h : Reachable ix) (c : Change) : Reachable (c.apply ix)

/-! ### Sound indexes -/

/-- A leaf in its place: of the form that the definition asks for, sound, and with structures of
exactly its type. -/
structure Housed (d : Definition) (config : Config) (l : TypeCode × Leaf) : Prop where
  sound : l.2.Sound
  alike : l.2.Alike (emptyLeaf d config l.1)
  home : ∀ fs ∈ l.2.elements, fs.type = l.1 ∧ fs.builtFor d.system = true

/-- The types that have a leaf. -/
def types (ix : Index) : List TypeCode := ix.leaves.map (·.1)

/-- An index whose leaves are those of the subtypes of its type, each in its place. -/
structure Sound (ix : Index) : Prop where
  committed : ix.system.Committed
  typed : ix.type.index < ix.system.size
  types : ix.types = ix.system.subtree ix.type
  housed : ∃ config, ∀ l ∈ ix.leaves, Housed ix.definition config l

variable {ix : Index} {t u : TypeCode} {leaf m n : Leaf} {i : Nat} {fs : FeatureStructure}

theorem Sound.nodup (h : ix.Sound) : ix.types.Nodup := by
  rw [h.types]
  exact h.committed.nodup_subtree _

theorem Sound.mem_types (h : ix.Sound) : t ∈ ix.types ↔ ix.system.subsumes ix.type t = true := by
  rw [h.types, h.committed.mem_subtree]

/-! ### Finding leaves -/

theorem position?_eq_findIdx? (ix : Index) (t : TypeCode) :
    ix.position? t = ix.types.findIdx? fun u => u == t := by
  rw [types, List.findIdx?_map]
  rfl

theorem position?_eq_some (h : ix.types.Nodup) :
    ix.position? t = some i ↔ ∃ leaf, ix.leaves[i]? = some (t, leaf) := by
  rw [position?_eq_findIdx?]
  constructor
  · intro hfind
    obtain ⟨hi, hit, -⟩ := List.findIdx?_eq_some_iff_getElem.mp hfind
    rw [types, List.length_map] at hi
    rw [beq_iff_eq] at hit
    simp only [types, List.getElem_map] at hit
    exact ⟨(ix.leaves[i]).2, by rw [List.getElem?_eq_getElem hi, ← hit]⟩
  · rintro ⟨leaf, hleaf⟩
    obtain ⟨hi, heq⟩ := List.getElem?_eq_some_iff.mp hleaf
    have hi' : i < ix.types.length := by rw [types, List.length_map]; exact hi
    have hit : ix.types[i] = t := by simp only [types, List.getElem_map, heq]
    rw [List.findIdx?_eq_some_iff_getElem]
    refine ⟨hi', beq_iff_eq.mpr hit, ?_⟩
    intro j hj
    rw [Bool.not_eq_true, beq_eq_false_iff_ne]
    intro hjt
    have := (List.Nodup.getElem_inj_iff h).mp (hjt.trans hit.symm)
    omega

theorem leaf?_eq_some (h : ix.types.Nodup) : ix.leaf? t = some leaf ↔ (t, leaf) ∈ ix.leaves := by
  rw [leaf?, Option.bind_eq_some_iff]
  constructor
  · rintro ⟨i, hi, hleaf⟩
    obtain ⟨leaf', hleaf'⟩ := (position?_eq_some h).mp hi
    rw [hleaf'] at hleaf
    cases hleaf
    exact List.mem_of_getElem? hleaf'
  · intro hmem
    obtain ⟨i, hi⟩ := List.getElem?_of_mem hmem
    exact ⟨i, (position?_eq_some h).mpr ⟨leaf, hi⟩, by rw [hi]; rfl⟩

theorem exists_position (h : ix.types.Nodup) (hl : ix.leaf? t = some leaf) :
    ∃ i, ix.position? t = some i ∧ ix.leaves[i]? = some (t, leaf) := by
  obtain ⟨i, hi⟩ := List.getElem?_of_mem ((leaf?_eq_some h).mp hl)
  exact ⟨i, (position?_eq_some h).mpr ⟨leaf, hi⟩, hi⟩

theorem covers_iff : ix.covers t = true ↔ t ∈ ix.types := by
  rw [covers, position?_eq_findIdx?, List.findIdx?_isSome]
  simp

theorem exists_leaf (h : ix.types.Nodup) (ht : t ∈ ix.types) : ∃ leaf, ix.leaf? t = some leaf := by
  obtain ⟨⟨u, leaf⟩, hl, rfl⟩ := List.mem_map.mp ht
  exact ⟨leaf, (leaf?_eq_some h).mpr hl⟩

theorem position?_eq_none (ht : t ∉ ix.types) : ix.position? t = none := by
  rw [← covers_iff, covers, Bool.not_eq_true, Option.isSome_eq_false_iff] at ht
  exact Option.isNone_iff_eq_none.mp ht

/-! ### Replacing a leaf -/

@[simp] theorem types_setLeaf (ix : Index) (i : Nat) (m : Leaf) :
    (ix.setLeaf i m).types = ix.types :=
  map_modify (f := fun l => (l.1, m)) (g := Prod.fst) (fun _ => rfl) ix.leaves i

/-- Putting a leaf back where it stands changes nothing. -/
theorem setLeaf_self (hi : ix.leaves[i]? = some (t, leaf)) : ix.setLeaf i leaf = ix := by
  obtain ⟨hlt, heq⟩ := List.getElem?_eq_some_iff.mp hi
  have hmodify : ix.leaves.modify i (fun l => (l.1, leaf)) = ix.leaves := by
    rw [List.modify_eq_set_getElem?, hi]
    show ix.leaves.set i (t, leaf) = ix.leaves
    rw [← heq, List.set_getElem_self]
  rw [setLeaf, hmodify]

/-- Only the leaf of the type is another one. -/
theorem leaf?_setLeaf (h : ix.types.Nodup) (hi : ix.leaves[i]? = some (t, leaf)) (m : Leaf)
    (u : TypeCode) : (ix.setLeaf i m).leaf? u = if u = t then some m else ix.leaf? u := by
  -- the leaf is found at the same position as before
  have hposition : (ix.setLeaf i m).position? u = ix.position? u := by
    rw [position?_eq_findIdx?, position?_eq_findIdx?, types_setLeaf]
  rw [leaf?, leaf?, hposition]
  cases hu : ix.position? u with
  | none =>
      rw [if_neg]
      · rfl
      · rintro rfl
        rw [(position?_eq_some h).mpr ⟨leaf, hi⟩] at hu
        cases hu
  | some j =>
      obtain ⟨leaf', hj⟩ := (position?_eq_some h).mp hu
      simp only [Option.bind_some, setLeaf, List.getElem?_modify]
      by_cases hij : i = j
      · subst hij
        rw [hi] at hj
        cases hj
        simp [hi]
      · have hut : u ≠ t := by
          rintro rfl
          have := (position?_eq_some h).mpr ⟨leaf, hi⟩
          rw [hu] at this
          exact hij (Option.some.inj this).symm
        simp [hij, hut]

theorem sound_setLeaf (h : ix.Sound) (hi : ix.leaves[i]? = some (t, leaf)) {changed : Bool}
    (hm : leaf.Successor changed m)
    (hhome : ∀ fs ∈ m.elements, fs.type = t ∧ fs.builtFor ix.system = true) :
    (ix.setLeaf i m).Sound := by
  obtain ⟨config, hhoused⟩ := h.housed
  refine ⟨h.committed, h.typed, (types_setLeaf ix i m).trans h.types, config, ?_⟩
  rintro ⟨u, n⟩ hl
  have hnodup : (ix.setLeaf i m).types.Nodup := by rw [types_setLeaf]; exact h.nodup
  have hleaf := (leaf?_eq_some hnodup).mpr hl
  rw [leaf?_setLeaf h.nodup hi] at hleaf
  split at hleaf
  -- the leaf that was replaced
  next hut =>
    subst hut
    cases hleaf
    exact ⟨hm.sound, hm.alike.trans (hhoused _ (List.mem_of_getElem? hi)).alike, hhome⟩
  next => exact hhoused _ ((leaf?_eq_some h.nodup).mp hleaf)

/-! ### Insertion, removal and clearing -/

theorem Sound.housed_leaf (h : ix.Sound) (hl : ix.leaf? t = some leaf) :
    leaf.Sound ∧ ∀ fs ∈ leaf.elements, fs.type = t ∧ fs.builtFor ix.system = true := by
  obtain ⟨config, hhoused⟩ := h.housed
  have hleaf := hhoused _ ((leaf?_eq_some h.nodup).mp hl)
  exact ⟨hleaf.sound, hleaf.home⟩

/-- An insertion into a covered type is one into the leaf of that type. -/
theorem insert_eq (h : ix.Sound) (hfs : fs.builtFor ix.system = true)
    (hl : ix.leaf? fs.type = some leaf) : ∃ i, ix.leaves[i]? = some (fs.type, leaf) ∧
      ix.insert fs = ((leaf.insert true fs).1, ix.setLeaf i (leaf.insert true fs).2) := by
  obtain ⟨i, hi, hget⟩ := exists_position h.nodup hl
  refine ⟨i, hget, ?_⟩
  simp only [insert, hfs, Bool.not_true, Bool.false_eq_true, ↓reduceIte, hi, hl]

/-- **An insertion into a covered type never fails**, and changes the leaf of that type only. -/
theorem insert_covered (h : ix.Sound) (hfs : fs.builtFor ix.system = true)
    (hl : ix.leaf? fs.type = some leaf) :
    ∃ i changed m, ix.leaves[i]? = some (fs.type, leaf) ∧
      ix.insert fs = (.ok changed, ix.setLeaf i m) ∧ leaf.Successor changed m ∧
      Insertion leaf.order fs leaf.elements changed m.elements := by
  obtain ⟨i, hget, hinsert⟩ := insert_eq h hfs hl
  obtain ⟨changed, m, hok, hm, hins⟩ := Leaf.insert_spec (h.housed_leaf hl).1 true fs
  rw [hok] at hinsert
  exact ⟨i, changed, m, hget, hinsert, hm, hins⟩

/-- A structure of another type system, or of a type that is not covered, is refused. -/
theorem insert_refused (h : ¬ (fs.builtFor ix.system = true ∧ fs.type ∈ ix.types)) :
    ∃ e, ix.insert fs = (.error e, ix) := by
  unfold insert
  split
  · exact ⟨_, rfl⟩
  next hfs =>
    have ht : fs.type ∉ ix.types := fun ht => h ⟨by simpa using hfs, ht⟩
    simp only [position?_eq_none ht]
    exact ⟨_, rfl⟩

/-- A removal from a covered type is one from the leaf of that type. -/
theorem erase_eq (h : ix.Sound) (hl : ix.leaf? fs.type = some leaf) :
    ∃ i, ix.leaves[i]? = some (fs.type, leaf) ∧
      ix.erase fs = ((leaf.erase true fs).1, ix.setLeaf i (leaf.erase true fs).2) := by
  obtain ⟨i, hi, hget⟩ := exists_position h.nodup hl
  exact ⟨i, hget, by simp only [erase, hi, hl]⟩

theorem erase_covered (h : ix.Sound) (hl : ix.leaf? fs.type = some leaf) :
    ∃ i changed m, ix.leaves[i]? = some (fs.type, leaf) ∧
      ix.erase fs = (changed, ix.setLeaf i m) ∧ leaf.Successor changed m ∧
      Removal leaf.order fs leaf.elements changed m.elements := by
  obtain ⟨i, hget, herase⟩ := erase_eq h hl
  obtain ⟨changed, m, hok, hm, hrem⟩ := Leaf.erase_spec (h.housed_leaf hl).1 true fs
  rw [hok] at herase
  exact ⟨i, changed, m, hget, herase, hm, hrem⟩

theorem erase_uncovered (ht : fs.type ∉ ix.types) : ix.erase fs = (false, ix) := by
  simp only [erase, position?_eq_none ht]

@[simp] theorem types_clear (ix : Index) : ix.clear.types = ix.types := by
  rw [types, clear, List.map_map]
  rfl

theorem leaf?_clear (ix : Index) (t : TypeCode) :
    ix.clear.leaf? t = (ix.leaf? t).map fun leaf => leaf.clear true := by
  rw [leaf?, leaf?, position?_eq_findIdx?, position?_eq_findIdx?, types_clear, Option.map_bind]
  congr 1
  funext i
  simp only [clear, List.getElem?_map, Function.comp_apply, Option.map_map]
  rfl

theorem sound_insert (h : ix.Sound) (fs : FeatureStructure) : (ix.insert fs).2.Sound := by
  by_cases hfs : fs.builtFor ix.system = true ∧ fs.type ∈ ix.types
  · obtain ⟨leaf, hl⟩ := exists_leaf h.nodup hfs.2
    obtain ⟨i, changed, m, hi, hok, hm, hins⟩ := insert_covered h hfs.1 hl
    rw [hok]
    apply sound_setLeaf h hi hm
    intro a ha
    rcases hins.mem ha with rfl | ha
    · exact ⟨rfl, hfs.1⟩
    · exact (h.housed_leaf hl).2 a ha
  · -- refused, and the index is the same
    obtain ⟨e, hok⟩ := insert_refused hfs
    rw [hok]
    exact h

theorem sound_erase (h : ix.Sound) (fs : FeatureStructure) : (ix.erase fs).2.Sound := by
  by_cases ht : fs.type ∈ ix.types
  · obtain ⟨leaf, hl⟩ := exists_leaf h.nodup ht
    obtain ⟨i, changed, m, hi, hok, hm, hrem⟩ := erase_covered h hl
    rw [hok]
    exact sound_setLeaf h hi hm fun a ha => (h.housed_leaf hl).2 a (hrem.mem ha)
  · rw [erase_uncovered ht]
    exact h

theorem sound_clear (h : ix.Sound) : ix.clear.Sound := by
  obtain ⟨config, hhoused⟩ := h.housed
  refine ⟨h.committed, h.typed, (types_clear ix).trans h.types, config, ?_⟩
  intro l hl
  obtain ⟨l, hl', rfl⟩ := List.mem_map.mp hl
  have hleaf := hhoused l hl'
  have hclear := Leaf.successor_clear hleaf.sound true
  refine ⟨hclear.sound, hclear.alike.trans hleaf.alike, ?_⟩
  intro fs hfs
  rw [Leaf.elements_clear] at hfs
  cases hfs

theorem sound_empty {d : Definition} {config : Config} (hd : d.system.Committed)
    (hok : Index.empty d config = .ok ix) : ix.Sound := by
  obtain ⟨covered, hcovered, hok⟩ := bind_eq_ok.mp hok
  cases hok
  have htyped := hd.index_lt_of_subtypes hcovered
  rw [hd.subtypes_eq htyped] at hcovered
  cases hcovered
  refine ⟨hd, htyped, ?_, config, ?_⟩
  · rw [types, List.map_map]
    exact List.map_id _
  · intro l hl
    obtain ⟨t, -, rfl⟩ := List.mem_map.mp hl
    refine ⟨?_, Leaf.Alike.refl _, ?_⟩
    · unfold emptyLeaf
      split
      · exact OrderedSet.sound_empty ..
      · exact OrderedSet.sound_empty ..
      · exact Bag.sound_empty ..
    · intro fs hfs
      unfold emptyLeaf at hfs
      split at hfs <;> cases hfs

theorem sound_change (h : ix.Sound) (c : Change) : (c.apply ix).Sound := by
  cases c with
  | insert fs => exact sound_insert h fs
  | erase fs => exact sound_erase h fs
  | clear => exact sound_clear h

/-- **Every reachable index is sound.** -/
theorem Reachable.sound (h : ix.Reachable) : ix.Sound := by
  induction h with
  | empty hd hok => exact sound_empty hd hok
  | change _ c ih => exact sound_change ih c

/-! ### What a change does to a leaf -/

@[simp] theorem definition_apply (ix : Index) (c : Change) :
    (c.apply ix).definition = ix.definition := by
  cases c with
  | insert fs =>
      simp only [Change.apply, insert]
      split
      · rfl
      · split <;> rfl
  | erase fs =>
      simp only [Change.apply, erase]
      split <;> rfl
  | clear => rfl

@[simp] theorem label_apply (ix : Index) (c : Change) : (c.apply ix).label = ix.label :=
  congrArg Definition.label (definition_apply ix c)

@[simp] theorem definition_after (ix : Index) (changes : List Change) :
    (ix.after changes).definition = ix.definition := by
  induction changes generalizing ix with
  | nil => rfl
  | cons c rest ih => exact (ih (c.apply ix)).trans (definition_apply ix c)

theorem sound_after (h : ix.Sound) (changes : List Change) : (ix.after changes).Sound := by
  induction changes generalizing ix with
  | nil => exact h
  | cons c rest ih => exact ih (sound_change h c)

theorem types_after (h : ix.Sound) (changes : List Change) :
    (ix.after changes).types = ix.types := by
  rw [(sound_after h changes).types, h.types, system, type, definition_after]
  rfl

theorem types_apply (h : ix.Sound) (c : Change) : (c.apply ix).types = ix.types :=
  types_after h [c]

theorem snapshot_eq (hl : ix.leaf? t = some leaf) : ix.snapshot t = leaf.snapshot := by
  rw [snapshot, hl]
  rfl

theorem successor_setLeaf (h : ix.Sound) (hl : ix.leaf? t = some leaf)
    (hi : ix.leaves[i]? = some (u, n)) {changed : Bool} (hm : n.Successor changed m) :
    ∃ m', (ix.setLeaf i m).leaf? t = some m' ∧ leaf.Successor (u == t && changed) m' := by
  rw [leaf?_setLeaf h.nodup hi]
  by_cases hut : u = t
  · subst hut
    rw [(leaf?_eq_some h.nodup).mpr (List.mem_of_getElem? hi)] at hl
    cases hl
    exact ⟨m, by simp, by simpa using hm⟩
  · have hfalse : (u == t && changed) = false := by simp [hut]
    rw [if_neg (Ne.symm hut), hfalse]
    exact ⟨leaf, hl, .refl (h.housed_leaf hl).1⟩

/-- **A change takes exactly the leaves that it affects to their next generation**, and leaves the
others as they were. -/
theorem successor_change (h : ix.Sound) (hl : ix.leaf? t = some leaf) (c : Change) :
    ∃ m, (c.apply ix).leaf? t = some m ∧ leaf.Successor (c.affects ix t) m := by
  have hsound := (h.housed_leaf hl).1
  cases c with
  | insert fs =>
      rw [Change.apply, Change.affects]
      by_cases hfs : fs.builtFor ix.system = true ∧ fs.type ∈ ix.types
      · obtain ⟨n, hn⟩ := exists_leaf h.nodup hfs.2
        obtain ⟨i, changed, m, hi, hok, hm, -⟩ := insert_covered h hfs.1 hn
        rw [hok]
        exact successor_setLeaf h hl hi hm
      · obtain ⟨e, hok⟩ := insert_refused hfs
        rw [hok, Bool.and_false]
        exact ⟨leaf, hl, .refl hsound⟩
  | erase fs =>
      rw [Change.apply, Change.affects]
      by_cases ht : fs.type ∈ ix.types
      · obtain ⟨n, hn⟩ := exists_leaf h.nodup ht
        obtain ⟨i, changed, m, hi, hok, hm, -⟩ := erase_covered h hn
        rw [hok]
        exact successor_setLeaf h hl hi hm
      · rw [erase_uncovered ht, Bool.and_false]
        exact ⟨leaf, hl, .refl hsound⟩
  | clear =>
      exact ⟨leaf.clear true, by rw [Change.apply, leaf?_clear, hl]; rfl,
        Leaf.successor_clear hsound true⟩

theorem Reachable.after (h : ix.Reachable) (changes : List Change) :
    (ix.after changes).Reachable := by
  induction changes generalizing ix with
  | nil => exact h
  | cons c rest ih => exact ih (h.change c)

/-! ### A small index -/

namespace Sample

/-- The root, marks below it, which have an integer feature, and words, which are marks. -/
def system : TypeSystem where
  uid := 1
  types := [
    ⟨"TOP", none, [⟨1⟩], []⟩,
    ⟨"Mark", some ⟨0⟩, [⟨2⟩], [⟨"place", .int, 0, ⟨1⟩⟩]⟩,
    ⟨"Word", some ⟨1⟩, [], [⟨"place", .int, 0, ⟨1⟩⟩]⟩]
  preorder := [⟨0⟩, ⟨1⟩, ⟨2⟩]
  spans := [(0, 3), (1, 3), (2, 3)]
  ranks := [0, 1, 2]

theorem committed_system : system.Committed :=
  have hmark := Declarations.Reachable.root.addType
    (show Declarations.root.addType "Mark" ⟨0⟩ = .ok _ from rfl)
  have hplace := hmark.addFeature (show Declarations.addFeature _ ⟨1⟩ "place" .int = .ok _ from rfl)
  ⟨_, 1, hplace.addType (show Declarations.addType _ "Word" ⟨1⟩ = .ok _ from rfl), rfl⟩

/-- A mark at a place. -/
def mark (n : Nat) (place : Int) : FeatureStructure :=
  ⟨⟨n + 1, n.succ_pos⟩, ⟨1⟩, 1, [.int place]⟩

/-- A word at a place. -/
def word (n : Nat) (place : Int) : FeatureStructure :=
  ⟨⟨n + 1, n.succ_pos⟩, ⟨2⟩, 1, [.int place]⟩

/-- Marks by their places. -/
def definition : Definition := .sorted "marks" ⟨system, ⟨1⟩, [.feature "place" 0 .standard]⟩

/-- The index of marks, empty. -/
def empty : Index := ⟨definition, [⟨1⟩, ⟨2⟩].map fun t => (t, emptyLeaf definition {} t)⟩

theorem reachable_empty : empty.Reachable :=
  .empty (d := definition) committed_system (show Index.empty definition {} = .ok empty from rfl)

/-- A word between two marks. -/
def changes : List Change := [.insert (mark 0 5), .insert (word 1 4), .insert (mark 2 3)]

/-- The index of marks with a word between two marks. -/
def index : Index := empty.after changes

theorem reachable_index : index.Reachable := reachable_empty.after _

/-- The bag of marks, empty. -/
def bag : Index :=
  let d := Definition.bag "marks" system ⟨1⟩
  ⟨d, [⟨1⟩, ⟨2⟩].map fun t => (t, emptyLeaf d {} t)⟩

theorem reachable_bag : bag.Reachable :=
  .empty committed_system (d := Definition.bag "marks" system ⟨1⟩)
    (show Index.empty _ {} = .ok bag from rfl)

/-- The bag of marks after a mark has come in, and after a word has come in behind it. -/
def bagChanges : List Change := [.insert (mark 0 1), .insert (word 1 2)]

end Sample
end FeatureIndex.Index
