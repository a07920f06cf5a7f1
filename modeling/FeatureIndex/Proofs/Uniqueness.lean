import FeatureIndex.Proofs.Iteration

/-!
# One structure for each key

A set index keeps one structure for each key in each of its leaves. A leaf holds structures of
exactly one type, so two structures of one type are never key-equal, whatever happened to the index
(`unique_by_key`). Key-equal structures of different types stand in different leaves and are both
held, as `not_unique_across_types` shows. They are told apart when the place of their types in the
linear order is one of the keys.
-/

namespace FeatureIndex.Index

variable {ix : Index} {a b : FeatureStructure}

/-- Structures whose types count in the keys are key-equal only when they are of one type. -/
theorem type_eq_of_compare (h : ix.Sound) (hkeys : .typePriority ∈ ix.definition.comparator.keys)
    (ha : a ∈ ix.held) (hb : b ∈ ix.held) (heq : ix.definition.comparator.compare a b = .eq) :
    a.type = b.type := by
  have hlt : ∀ {fs : FeatureStructure}, fs ∈ ix.held → fs.type.index < ix.system.size := fun hfs =>
    (h.committed.index_lt (h.mem_types.mp (h.types_of_held hfs))).2
  have hpriority := Comparator.compareKeys_eq_eq.mp heq .typePriority hkeys
  exact h.committed.priority_inj (hlt ha) (hlt hb) (Nat.compare_eq_eq.mp hpriority)

/-- The leaf of a type in a set holds one structure for each key. -/
theorem pairwise_snapshot (h : ix.Sound) (hkind : ix.kind = .set) (t : TypeCode) :
    (ix.snapshot t).elements.Pairwise fun a b => ix.definition.comparator.compare a b ≠ .eq := by
  rw [← leafOrder_of_set hkind]
  refine (ascending_snapshot h t).imp fun {a b} hab heq => ?_
  rw [hab] at heq
  cases heq

/-- Leaf by leaf, a set visits no two structures of one type and one key. -/
theorem pairwise_listing (h : ix.Sound) (hkind : ix.kind = .set) {us : List TypeCode}
    (hus : us.Nodup) : (listing ix.definition ix.snapshot us).Pairwise fun a b =>
      a.type = b.type → ix.definition.comparator.compare a b ≠ .eq := by
  have hlisting : listing ix.definition ix.snapshot us =
      us.flatMap fun t => (ix.snapshot t).elements := by
    rw [kind] at hkind
    simp only [listing, hkind]
  rw [hlisting, List.pairwise_flatMap]
  refine ⟨fun t _ => ?_, hus.imp fun {t u} htu a ha b hb hab => ?_⟩
  · refine (pairwise_snapshot h hkind t).imp fun {a b} hne => ?_
    intro _
    exact hne
  · -- two leaves hold structures of two types
    rw [← (h.mem_snapshot.mp ha).2, ← (h.mem_snapshot.mp hb).2] at htu
    exact absurd hab htu

/-- **A set is unique by key, type by type.** After any changes, with any structures, an iteration
over a set index visits exactly what the index holds, and of no exact type two structures that are
key-equal. So what is held of one key differs in type, and where the types are among the keys there
is only one structure for each key. -/
theorem unique_by_key (h : ix.Reachable) (hkind : ix.kind = .set) :
    ∃ it, ix.iterateOwn true = .ok it ∧
      (∀ fs, fs ∈ (it.collect ix.snapshot).1 ↔ fs ∈ ix.held) ∧
      ((it.collect ix.snapshot).1.Pairwise fun a b =>
        a.type = b.type → ix.definition.comparator.compare a b ≠ .eq) ∧
      (.typePriority ∈ ix.definition.comparator.keys →
        (it.collect ix.snapshot).1.Pairwise fun a b =>
          ix.definition.comparator.compare a b ≠ .eq) := by
  have hsound := h.sound
  have ht : ix.type ∈ ix.types :=
    hsound.mem_types.mpr (hsound.committed.subsumes_refl hsound.typed)
  have hnodup := nodup_asked hsound ix.type true
  -- nothing is merged, so there is nothing to tell apart
  have hunmerged : ix.definition.kind ≠ .sorted := by
    rw [kind] at hkind
    rw [hkind]
    exact nofun
  have htell : Tellable ix.definition ix.snapshot (asked ix.system ix.type true) :=
    ⟨fun hsorted => absurd hsorted hunmerged, fun hsorted => absurd hsorted hunmerged⟩
  obtain ⟨it, hok, hs, hbound⟩ := htell.exists_iterate hsound ht
  have hpairwise := pairwise_listing hsound hkind hnodup
  have hmem : ∀ fs, fs ∈ listing ix.definition ix.snapshot (asked ix.system ix.type true) ↔
      fs ∈ ix.held := by
    intro fs
    simp only [mem_listing, hsound.mem_snapshot, mem_asked hsound]
    refine ⟨fun ⟨_, _, hfs, _⟩ => hfs, fun hfs => ⟨fs.type, ?_, hfs, rfl⟩⟩
    exact hsound.mem_types.mp (hsound.types_of_held hfs)
  rw [← hbound, ← Iter.collect_eq hs] at hpairwise hmem
  refine ⟨it, hok, hmem, hpairwise, fun hkeys => ?_⟩
  refine hpairwise.imp_of_mem fun {a b} ha hb hab heq => ?_
  exact hab (type_eq_of_compare hsound hkeys ((hmem a).mp ha) ((hmem b).mp hb) heq) heq

namespace Sample

/-- One mark for each place. -/
def onePerPlace : Definition := .set "places" ⟨system, ⟨1⟩, [.feature "place" 0 .standard]⟩

/-- The places of marks, with none taken. -/
def places : Index := ⟨onePerPlace, [⟨1⟩, ⟨2⟩].map fun t => (t, emptyLeaf onePerPlace {} t)⟩

theorem reachable_places : places.Reachable :=
  .empty (d := onePerPlace) committed_system (show Index.empty onePerPlace {} = .ok places from rfl)

/-- Two marks and a word at one place. -/
def taken : Index := places.after [.insert (mark 0 5), .insert (mark 1 5), .insert (word 2 5)]

theorem reachable_taken : taken.Reachable := reachable_places.after _

end Sample

open Sample (mark word taken reachable_taken)

/-- The second mark finds its place taken. -/
theorem unique_by_key_taken : taken.Reachable ∧ taken.kind = .set ∧ mark 1 5 ∉ taken.held ∧
    ∃ it, taken.iterateOwn true = .ok it ∧
      (it.collect taken.snapshot).1.Pairwise fun a b =>
        a.type = b.type → taken.definition.comparator.compare a b ≠ .eq := by
  obtain ⟨it, hok, -, hpairwise, -⟩ := unique_by_key reachable_taken rfl
  exact ⟨reachable_taken, rfl, by decide, it, hok, hpairwise⟩

/-- A mark and a word at one place are both visited. -/
theorem not_unique_across_types : taken.Reachable ∧ taken.kind = .set ∧
    ∃ it, taken.iterateOwn true = .ok it ∧ mark 0 5 ∈ (it.collect taken.snapshot).1 ∧
      word 2 5 ∈ (it.collect taken.snapshot).1 ∧ mark 0 5 ≠ word 2 5 ∧
      taken.definition.comparator.compare (mark 0 5) (word 2 5) = .eq :=
  ⟨reachable_taken, rfl, _, rfl, by decide, by decide, by decide, by decide⟩

end FeatureIndex.Index
