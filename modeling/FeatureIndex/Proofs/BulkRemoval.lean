import FeatureIndex.Proofs.Refusals

/-!
# Removing all of a type

A repository removes all structures of a type by listing them first and then removing one after
another. `Loses` is what that does to an index: each leaf keeps what is not among the structures
that go, in its order. One removal does so (`loses_erase`), and the losses of a run add up.

Where no two structures share an id, everything that can be asked of an index follows from it
(`Index.Without`): what it holds and contains, and what every iteration visits. `eraseType_spec`
says this of the bag of everything and of each index, and how many structures went.
-/

namespace FeatureIndex

/-! ### Indexes -/

namespace Index

variable {ix ix' ix'' : Index} {gone more : List FeatureStructure} {fs : FeatureStructure}
  {t : TypeCode} {withSubtypes : Bool}

/-- One index became the other by losing structures: each leaf keeps the others, in its order. -/
structure Loses (gone : List FeatureStructure) (ix ix' : Index) : Prop where
  sound : ix.Sound → ix'.Sound
  definition : ix'.definition = ix.definition
  types : ix'.types = ix.types
  leaf : ∀ t, (ix'.snapshot t).elements = (ix.snapshot t).elements.filter (· ∉ gone)

theorem Loses.refl (ix : Index) : Loses [] ix ix := ⟨id, rfl, rfl, by simp⟩

theorem Loses.trans (h : Loses gone ix ix') (h' : Loses more ix' ix'') :
    Loses (gone ++ more) ix ix'' where
  sound := h'.sound ∘ h.sound
  definition := h'.definition.trans h.definition
  types := h'.types.trans h.types
  leaf t := by
    rw [h'.leaf, h.leaf, List.filter_filter]
    apply List.filter_congr
    intro fs _
    simp [Bool.and_comm]

/-- Only which structures go matters. -/
theorem Loses.congr (h : Loses gone ix ix') (hmem : ∀ fs, fs ∈ gone ↔ fs ∈ more) :
    Loses more ix ix' where
  sound := h.sound
  definition := h.definition
  types := h.types
  leaf t := by
    rw [h.leaf]
    simp only [hmem]

/-- **A removal takes one structure out of its leaf**, when it is known by its id. -/
theorem loses_erase (h : ix.Sound) (hid : ∀ e ∈ ix.held, e.id.val = fs.id.val → e = fs) :
    Loses [fs] ix (ix.erase fs).2 where
  sound _ := sound_erase h fs
  definition := definition_apply ix (.erase fs)
  types := types_apply h (.erase fs)
  leaf t := by
    have hsound := sound_erase h fs
    have hafter := ascending_snapshot hsound t
    rw [show (ix.erase fs).2.definition = ix.definition from
      definition_apply ix (.erase fs)] at hafter
    refine hafter.ext ((ascending_snapshot h t).filter _) fun a => ?_
    rw [hsound.mem_snapshot, mem_held_erase_iff h, List.mem_filter, h.mem_snapshot]
    -- what the removal meets is the structure itself
    have hmeets : a ∈ ix.held → (ix.Meets fs a ↔ a = fs) := fun ha => meets_iff hid ha
    simp only [List.mem_singleton, decide_eq_true_eq]
    tauto

/-! ### What can be asked -/

/-- A structure that is known by its id is contained where it is held. -/
theorem contains_iff_of_known (h : ix.Sound)
    (hid : ∀ e ∈ ix.held, e.id.val = fs.id.val → e = fs) :
    ix.contains fs = true ↔ fs ∈ ix.held := by
  rw [contains, h.mem_held]
  cases hl : ix.leaf? fs.type with
  | none => simp
  | some leaf =>
      obtain ⟨hleaf, hhome⟩ := h.housed_leaf hl
      simp only [Option.any_some, Option.some.injEq, exists_eq_left', Leaf.contains_iff hleaf]
      constructor
      · rintro ⟨e, he, -, hsame⟩
        have hheld : e ∈ ix.held := h.mem_held.mpr ⟨leaf, (hhome e he).1 ▸ hl, he⟩
        rwa [hid e hheld (FeatureStructure.same_iff.mp hsame)] at he
      · intro hfs
        refine ⟨fs, hfs, ?_, fs.same_self⟩
        rw [h.order_eq hl]
        exact Std.ReflCmp.compare_self

/-- What an iteration over a type visits. -/
def visited (ix : Index) (t : TypeCode) (withSubtypes : Bool) :
    Except Error (List FeatureStructure) := do
  return ((← ix.iterate t withSubtypes).collect ix.snapshot).1

theorem visited_eq (h : ix.Sound) (hc : ix.Coherent) (ht : t ∈ ix.types) (withSubtypes : Bool) :
    ix.visited t withSubtypes =
      .ok (listing ix.definition ix.snapshot (asked ix.system t withSubtypes)) := by
  obtain ⟨it, hok, hs, hbound⟩ := exists_iterate h hc ht withSubtypes
  rw [visited, hok, ← hbound, ← Iter.collect_eq hs]
  rfl

/-- Leaves that keep some of their structures are listed as these stand in the listing. -/
theorem listing_filter {d : Definition} {live live' : TypeCode → Snapshot} {us : List TypeCode}
    {p : FeatureStructure → Bool} (h : Tellable d live us) (h' : Tellable d live' us)
    (hlive : ∀ t, (live' t).elements = (live t).elements.filter p) :
    listing d live' us = (listing d live us).filter p := by
  cases hkind : d.kind with
  | sorted =>
      refine (h'.ascending_listing hkind).ext ((h.ascending_listing hkind).filter p) fun fs => ?_
      rw [mem_listing, List.mem_filter, mem_listing]
      simp only [hlive, List.mem_filter]
      constructor
      · rintro ⟨t, ht, hfs, hkept⟩
        exact ⟨⟨t, ht, hfs⟩, hkept⟩
      · rintro ⟨⟨t, ht, hfs⟩, hkept⟩
        exact ⟨t, ht, hfs, hkept⟩
  | set | bag => simp only [listing, hkind, List.filter_flatMap, hlive]

/-- An index after some structures are gone: each leaf, all that is held and each iteration are what
they were without these structures, and of the structures that are known by their ids the same are
contained as before, but not those. -/
structure Without (gone : List FeatureStructure) (ix ix' : Index) : Prop where
  definition : ix'.definition = ix.definition
  leaf : ∀ t, (ix'.snapshot t).elements = (ix.snapshot t).elements.filter (· ∉ gone)
  held : ix'.held = ix.held.filter (· ∉ gone)
  contains : ∀ fs, (∀ e ∈ ix.held, e.id.val = fs.id.val → e = fs) →
    ix'.contains fs = (ix.contains fs && decide (fs ∉ gone))
  visited : ∀ t withSubtypes, ix'.visited t withSubtypes =
    List.filter (· ∉ gone) <$> ix.visited t withSubtypes

theorem Loses.held (h : Loses gone ix ix') (hs : ix.Sound) :
    ix'.held = ix.held.filter (· ∉ gone) := by
  rw [hs.held_eq, (h.sound hs).held_eq, h.types, List.filter_flatMap]
  exact List.flatMap_congr fun t _ => h.leaf t

/-- **All that can be asked of an index follows from its leaves.** -/
theorem Loses.without (h : Loses gone ix ix') (hs : ix.Sound) (hc : ix.Coherent) :
    Without gone ix ix' := by
  have hs' := h.sound hs
  have hheld := h.held hs
  have hc' : ix'.Coherent := by
    rw [Coherent, hheld]
    exact hc.sublist (List.filter_sublist.map _)
  refine ⟨h.definition, h.leaf, hheld, ?_, ?_⟩
  · intro fs hid
    have hid' : ∀ e ∈ ix'.held, e.id.val = fs.id.val → e = fs := fun e he =>
      hid e (List.mem_of_mem_filter (hheld ▸ he))
    rw [Bool.eq_iff_iff, Bool.and_eq_true, contains_iff_of_known hs hid,
      contains_iff_of_known hs' hid', hheld, List.mem_filter]
  · intro t withSubtypes
    have hsystem : ix'.system = ix.system := congrArg Definition.system h.definition
    by_cases ht : t ∈ ix.types
    · have hasked := nodup_asked hs t withSubtypes
      rw [visited_eq hs hc ht, visited_eq hs' hc' (h.types ▸ ht), h.definition, hsystem,
        listing_filter (hc.tellable hs hasked) (h.definition ▸ hc'.tellable hs' hasked) h.leaf]
      rfl
    · have hlabel : ix'.notCovered t = ix.notCovered t := by
        rw [notCovered, notCovered, hsystem, label, label, h.definition]
      rw [Index.visited, Index.visited, iterate_uncovered ht, iterate_uncovered (h.types ▸ ht),
        hlabel]
      rfl

end Index

/-! ### Repositories -/

namespace Repository

variable {r r' r'' : Repository} {gone more : List FeatureStructure} {fs : FeatureStructure}
  {ts : TypeSystem} {t : TypeCode} {withSubtypes : Bool}

/-- The repository holds a structure: in the bag of everything, or in an index. -/
def Holds (r : Repository) (fs : FeatureStructure) : Prop :=
  fs ∈ r.all.held ∨ ∃ ix ∈ r.indexes, fs ∈ ix.held

/-- No two structures that the repository holds share an id. -/
def Coherent (r : Repository) : Prop :=
  ∀ a b, r.Holds a → r.Holds b → a.id.val = b.id.val → a = b

theorem coherent_iff : r.Coherent ↔
    ∀ a ∈ r.all.held ++ r.indexes.flatMap Index.held,
      ∀ b ∈ r.all.held ++ r.indexes.flatMap Index.held, a.id.val = b.id.val → a = b := by
  have hmem : ∀ fs, r.Holds fs ↔ fs ∈ r.all.held ++ r.indexes.flatMap Index.held := by
    intro fs
    rw [List.mem_append, List.mem_flatMap, Holds]
  simp only [Coherent, hmem]
  exact ⟨fun h a ha b hb => h a b ha hb, fun h a b ha hb => h a ha b hb⟩

instance (r : Repository) : Decidable r.Coherent := decidable_of_iff _ coherent_iff.symm

theorem Coherent.all (hc : r.Coherent) (hr : r.Sound) : r.all.Coherent :=
  hr.all.coherent fun a ha b hb => hc a b (.inl ha) (.inl hb)

theorem Coherent.index (hc : r.Coherent) (hr : r.Sound) {ix : Index} (hix : ix ∈ r.indexes) :
    ix.Coherent :=
  (hr.indexes ix hix).1.coherent fun a ha b hb => hc a b (.inr ⟨ix, hix, ha⟩) (.inr ⟨ix, hix, hb⟩)

/-- What is held after a removal was held before. -/
theorem Sound.holds_of_erase (hr : r.Sound) {a : FeatureStructure}
    (ha : (r.erase fs).2.Holds a) : r.Holds a := by
  have hkept : ∀ ix : Index, ix.Sound → a ∈ (ix.erase fs).2.held → a ∈ ix.held :=
    fun ix hix hin => ((Index.mem_held_erase_iff hix fs).mp hin).1
  rw [erase_eq] at ha
  rcases ha with ha | ⟨ix', hix', ha⟩
  · exact .inl (hkept r.all hr.all ha)
  · refine .inr ?_
    show ∃ ix ∈ r.indexes, a ∈ ix.held
    split at hix'
    · obtain ⟨ix, hix, rfl⟩ := List.mem_map.mp hix'
      exact ⟨ix, hix, hkept ix (hr.indexes ix hix).1 ha⟩
    · exact ⟨ix', hix', ha⟩

theorem Coherent.erase (hc : r.Coherent) (hr : r.Sound) (fs : FeatureStructure) :
    (r.erase fs).2.Coherent :=
  fun a b ha hb => hc a b (hr.holds_of_erase ha) (hr.holds_of_erase hb)

/-- One repository became the other by losing structures everywhere. -/
structure Loses (gone : List FeatureStructure) (r r' : Repository) : Prop where
  system : r'.system = r.system
  all : Index.Loses gone r.all r'.all
  indexes : List.Forall₂ (Index.Loses gone) r.indexes r'.indexes

theorem Loses.refl (r : Repository) : Loses [] r r :=
  ⟨rfl, .refl r.all, List.forall₂_same.mpr fun ix _ => .refl ix⟩

theorem Loses.trans (h : Loses gone r r') (h' : Loses more r' r'') : Loses (gone ++ more) r r'' :=
  ⟨h'.system.trans h.system, h.all.trans h'.all,
    forall₂_trans h.indexes h'.indexes fun _ _ _ => .trans⟩

/-- **A removal takes the structure out of everything.** -/
theorem loses_erase (hr : r.Sound) (hc : r.Coherent) (hfs : fs ∈ r.all.held) :
    Loses [fs] r (r.erase fs).2 := by
  have hremoved : (r.erase fs).1 = true :=
    (hr.erase_spec fs).1.trans (hr.contains_iff.mpr ⟨fs, hfs, rfl, rfl⟩)
  refine ⟨(evolves_erase r fs).system, ?_, ?_⟩
  · rw [erase_eq]
    exact Index.loses_erase hr.all fun e he => hc e fs (.inl he) (.inl hfs)
  · rw [erase_eq, if_pos hremoved]
    refine List.forall₂_map_right_iff.mpr (List.forall₂_same.mpr fun ix hix => ?_)
    exact Index.loses_erase (hr.indexes ix hix).1 fun e he =>
      hc e fs (.inr ⟨ix, hix, he⟩) (.inl hfs)

/-- **Removals in turn take all of the structures out.** Each is still there when its turn comes. -/
theorem loses_eraseAll (hr : r.Sound) (hc : r.Coherent) {l : List FeatureStructure}
    (hl : ∀ fs ∈ l, fs ∈ r.all.held) (hnodup : l.Nodup) : Loses l r (r.eraseAll l) := by
  induction l generalizing r with
  | nil => exact .refl r
  | cons fs rest ih =>
      obtain ⟨hfs, hrest⟩ := List.forall_mem_cons.mp hl
      obtain ⟨hhead, hnodup⟩ := List.nodup_cons.mp hnodup
      have hstep := loses_erase hr hc hfs
      refine hstep.trans (ih (hr.evolves (evolves_erase r fs)) (hc.erase hr fs) ?_ hnodup)
      intro a ha
      have hne : a ≠ fs := fun heq => hhead (heq ▸ ha)
      rw [hstep.all.held hr.all, List.mem_filter]
      exact ⟨hrest a ha, by simpa using hne⟩

theorem Loses.congr (h : Loses gone r r') (hmem : ∀ fs, fs ∈ gone ↔ fs ∈ more) :
    Loses more r r' :=
  ⟨h.system, h.all.congr hmem, h.indexes.imp fun _ _ hix => hix.congr hmem⟩

/-- What is lost is missed by everything that can be asked of an index. -/
theorem Loses.without (h : Loses gone r r') (hr : r.Sound) (hc : r.Coherent) :
    r.all.Without gone r'.all ∧ List.Forall₂ (Index.Without gone) r.indexes r'.indexes := by
  refine ⟨h.all.without hr.all (hc.all hr), ?_⟩
  have hindexes := (List.forall₂_and_left _ _).mpr ⟨fun ix hix =>
    (show ix.Sound ∧ ix.Coherent from ⟨(hr.indexes ix hix).1, hc.index hr hix⟩), h.indexes⟩
  exact hindexes.imp fun ix ix' hix => hix.2.without hix.1.1 hix.1.2

/-- **The structures of a type are listed once each.** -/
theorem Sound.structuresOf_perm (hr : r.Sound) (hc : r.Coherent) (ht : t.index < r.system.size)
    (withSubtypes : Bool) : ∃ l, r.structuresOf t withSubtypes = .ok l ∧
      l.Perm (r.all.held.filter fun fs => takes r.system t withSubtypes fs.type) := by
  have ht' := hr.mem_types_all.mpr ht
  have hvisits := Index.visits_listing hr.all (hc.all hr) ht' withSubtypes
  refine ⟨_, Index.visited_eq hr.all (hc.all hr) ht' withSubtypes, ?_⟩
  refine (List.perm_ext_iff_of_nodup hvisits.nodup (hr.all.nodup_held.filter _)).mpr fun fs => ?_
  rw [hvisits.mem_iff, List.mem_filter, hr.system_all, takes]
  cases withSubtypes <;> simp

/-- **Removing a type removes exactly its structures.** They are those of the contained ones that
have the type, or one below it when subtypes are asked for, and their number is told. No index has
any of them afterwards, whatever its kind and type, and each has all the others in its leaves and
its iterations where they were. A type from elsewhere is refused, and nothing changes. -/
theorem eraseType_spec (h : Reachable ts r) (hc : r.Coherent) (t : TypeCode)
    (withSubtypes : Bool) :
    let gone := r.all.held.filter fun fs => takes ts t withSubtypes fs.type
    (∀ fs, r.Holds fs →
      (fs ∈ gone ↔ r.contains fs = true ∧ takes ts t withSubtypes fs.type = true)) ∧
    (t.index < ts.size → ∃ r', r.eraseType t withSubtypes = (.ok gone.length, r') ∧
      r.all.Without gone r'.all ∧ List.Forall₂ (Index.Without gone) r.indexes r'.indexes) ∧
    (ts.size ≤ t.index →
      r.eraseType t withSubtypes = (.error (.typeNotInIndex allLabel (ts.name t)), r)) := by
  intro gone
  obtain ⟨hr, rfl⟩ := h.sound
  refine ⟨?_, ?_, ?_⟩
  · intro fs hfs
    have hcontains : r.contains fs = true ↔ fs ∈ r.all.held :=
      Index.contains_iff_of_known hr.all fun e he => hc e fs (.inl he) hfs
    rw [hcontains]
    exact List.mem_filter
  · intro ht
    obtain ⟨l, hl, hperm⟩ := hr.structuresOf_perm hc ht withSubtypes
    have hnodup : l.Nodup := hperm.nodup_iff.mpr (hr.all.nodup_held.filter _)
    have hheld : ∀ fs ∈ l, fs ∈ r.all.held := fun fs hfs =>
      (List.mem_filter.mp (hperm.subset hfs)).1
    have hloses := (loses_eraseAll hr hc hheld hnodup).congr fun fs => hperm.mem_iff
    exact ⟨r.eraseAll l, by rw [eraseType, hl, ← hperm.length_eq], hloses.without hr hc⟩
  · intro ht
    have hout : t ∉ r.all.types := fun hin => Nat.not_lt.mpr ht (hr.mem_types_all.mp hin)
    rw [eraseType, structuresOf, Index.iterate_uncovered hout, Index.notCovered, hr.system_all,
      Index.label, hr.everything]
    rfl

namespace Sample

open Index.Sample (definition mark word)

/-- Words, one for each place. -/
def words : Definition := .set "words" ⟨Index.Sample.system, ⟨2⟩, [.feature "place" 0 .standard]⟩

/-- Everything, without an order. -/
def things : Definition := .bag "things" Index.Sample.system ⟨0⟩

/-- A repository with an index of each kind, over types above and below. Two of the words share a
place. -/
def kinds : Repository :=
  [.define definition, .define words, .define things, .insert (mark 0 5), .insert (word 1 4),
    .insert (word 2 4), .insert (mark 3 3)].foldl Op.apply blank

theorem reachable_kinds : Reachable Index.Sample.system kinds := by
  have hmarks := reachable_blank.define (d := definition) fun _ => rfl
  have hwords := hmarks.define (d := words) fun _ => rfl
  have hthings := hwords.define (d := things) fun _ => rfl
  exact (((hthings.insert (mark 0 5)).insert (word 1 4)).insert (word 2 4)).insert (mark 3 3)

end Sample

open Sample (kinds reachable_kinds)
open Index.Sample (mark word)

/-- The words go, also those that an index had no place for. -/
theorem eraseType_kinds : Reachable Index.Sample.system kinds ∧ kinds.Coherent ∧
    kinds.indexes.map Index.held = [[mark 3 3, mark 0 5, word 1 4, word 2 4], [word 1 4],
      [mark 0 5, mark 3 3, word 1 4, word 2 4]] ∧
    ∃ r', kinds.eraseType ⟨2⟩ true = (.ok 2, r') ∧
      r'.indexes.map Index.held = [[mark 3 3, mark 0 5], [], [mark 0 5, mark 3 3]] := by
  have hc : kinds.Coherent := by decide
  obtain ⟨r', hok, hall, hindexes⟩ :=
    (eraseType_spec reachable_kinds hc ⟨2⟩ true).2.1 (by decide)
  exact ⟨reachable_kinds, hc, by decide, r', hok, by cases hok; decide⟩

end Repository
end FeatureIndex
