import FeatureIndex.Proofs.Evolution

/-!
# Structures of other type systems

A repository refuses to add a structure of another type system. Looking one up and removing one,
however, go by type and id alone, as the bag of everything does. So a structure of another type
system is taken for a held one that it shadows: one that has its type and its id.

`foreign_spec` says this of every reachable repository, and `not_untouched_by_twin` shows a
structure that is removed in the name of one of another type system.
-/

namespace FeatureIndex

/-! ### Indexes -/

namespace Index

variable {ix : Index} {fs : FeatureStructure} {leaf : Leaf}

/-- A removal tells whether the index held the structure, and changes nothing when it did not. -/
theorem erase_spec (h : ix.Sound) (fs : FeatureStructure) :
    (ix.erase fs).1 = ix.contains fs ∧ (ix.contains fs = false → (ix.erase fs).2 = ix) := by
  by_cases ht : fs.type ∈ ix.types
  · obtain ⟨leaf, hl⟩ := exists_leaf h.nodup ht
    obtain ⟨i, changed, m, hi, hok, hm, hrem⟩ := erase_covered h hl
    have hleaf : leaf.contains fs = true ↔ _ := Leaf.contains_iff (h.housed_leaf hl).1
    have hcontains : ix.contains fs = leaf.contains fs := by rw [contains, hl, Option.any_some]
    rw [hok, hcontains]
    generalize m.elements = after at hrem
    cases hrem with
    | removed he heq hsame =>
        rw [hleaf.mpr ⟨_, List.mem_of_getElem? he, heq, hsame⟩]
        exact ⟨rfl, fun hout => Bool.noConfusion hout⟩
    | absent hnone =>
        have hout : leaf.contains fs = false := by
          rw [Bool.eq_false_iff, ne_eq, hleaf]
          rintro ⟨e, he, heq, hsame⟩
          rw [hnone e he heq] at hsame
          cases hsame
        -- the very same leaf is put back
        obtain rfl := hm.same rfl
        exact ⟨hout.symm, fun _ => setLeaf_self hi⟩
  · have hout : ix.contains fs = false := by
      rw [contains, leaf?, position?_eq_none ht]
      rfl
    rw [erase_uncovered ht, hout]
    exact ⟨rfl, fun _ => rfl⟩

/-- The leaf of a bag goes by ids. -/
theorem leaf_contains_iff_of_bag (h : ix.Sound) (hkind : ix.kind = .bag)
    (hl : ix.leaf? fs.type = some leaf) :
    leaf.contains fs = true ↔ ∃ e ∈ leaf.elements, e.id.val = fs.id.val := by
  have horder : leaf.order = Comparator.compareIds := by
    rw [kind] at hkind
    rw [h.order_eq hl, leafOrder, hkind]
  rw [Leaf.contains_iff (h.housed_leaf hl).1, horder]
  simp only [Comparator.compareIds_eq_eq, FeatureStructure.same_iff, and_self]

/-- **A bag takes a structure for a held one of its type and id.** -/
theorem contains_iff_of_bag (h : ix.Sound) (hkind : ix.kind = .bag) :
    ix.contains fs = true ↔ ∃ e ∈ ix.held, e.type = fs.type ∧ e.id.val = fs.id.val := by
  rw [contains, Option.any_eq_true]
  constructor
  · rintro ⟨leaf, hl, hin⟩
    obtain ⟨e, he, hid⟩ := (leaf_contains_iff_of_bag h hkind hl).mp hin
    have ht := ((h.housed_leaf hl).2 e he).1
    exact ⟨e, h.mem_held.mpr ⟨leaf, ht ▸ hl, he⟩, ht, hid⟩
  · rintro ⟨e, he, ht, hid⟩
    obtain ⟨leaf, hl, he⟩ := h.mem_held.mp he
    rw [ht] at hl
    exact ⟨leaf, hl, (leaf_contains_iff_of_bag h hkind hl).mpr ⟨e, he, hid⟩⟩

end Index

/-! ### Repositories -/

namespace Repository

variable {r : Repository} {fs : FeatureStructure} {ts : TypeSystem}

/-- The repository holds a structure of that type and id. -/
def Shadowed (r : Repository) (fs : FeatureStructure) : Prop :=
  ∃ e ∈ r.all.held, e.type = fs.type ∧ e.id.val = fs.id.val

theorem Sound.contains_iff (h : r.Sound) : r.contains fs = true ↔ r.Shadowed fs := by
  have hkind : r.all.kind = .bag := by
    rw [Index.kind, h.everything]
    rfl
  exact Index.contains_iff_of_bag h.all hkind

/-- A removal tells whether the structure is contained, and changes nothing when it is not. -/
theorem Sound.erase_spec (h : r.Sound) (fs : FeatureStructure) :
    (r.erase fs).1 = r.contains fs ∧ (r.contains fs = false → (r.erase fs).2 = r) := by
  obtain ⟨hanswer, hsame⟩ := Index.erase_spec h.all fs
  rw [erase]
  show _ = r.all.contains fs ∧ (r.all.contains fs = false → _)
  generalize r.all.erase fs = p at hanswer hsame
  obtain ⟨removed, all⟩ := p
  cases removed with
  | true =>
      rw [← hanswer]
      exact ⟨rfl, fun hout => Bool.noConfusion hout⟩
  | false =>
      refine ⟨hanswer, fun hout => ?_⟩
      obtain rfl := hsame hout
      rfl

/-- **A structure of another type system is refused, and taken for the structure that it shadows.**
Where it shadows none, it is not contained, there is nothing to remove, and the repository stays as
it was. -/
theorem foreign_spec (h : Reachable ts r) (hfs : fs.builtFor ts = false) :
    r.insert fs = (.error (.foreignTypeSystem (.fs fs.id.val)), r) ∧
      (r.contains fs = true ↔ r.Shadowed fs) ∧ ((r.erase fs).1 = true ↔ r.Shadowed fs) ∧
      (¬ r.Shadowed fs → r.erase fs = (false, r)) := by
  obtain ⟨hr, hsystem⟩ := h.sound
  obtain ⟨hanswer, hsame⟩ := hr.erase_spec fs
  refine ⟨?_, hr.contains_iff, ?_, ?_⟩
  · have hcheck : r.check fs = .error (.foreignTypeSystem (.fs fs.id.val)) := by
      rw [check, hsystem, hfs]
      rfl
    rw [insert, hcheck]
  · rw [hanswer, hr.contains_iff]
  · intro hnone
    have hout : r.contains fs = false := by
      rw [Bool.eq_false_iff, ne_eq, hr.contains_iff]
      exact hnone
    exact Prod.ext (hanswer.trans hout) (hsame hout)

namespace Sample

open Index (emptyLeaf)
open Index.Sample (mark committed_system)

/-- The bag of everything over the marks and words. -/
def everything : Definition := .bag allLabel Index.Sample.system .top

/-- A repository for marks and words. -/
def blank : Repository where
  system := Index.Sample.system
  config := {}
  indexes := []
  all := ⟨everything, [⟨0⟩, ⟨1⟩, ⟨2⟩].map fun t => (t, emptyLeaf everything {} t)⟩

theorem reachable_blank : Reachable Index.Sample.system blank :=
  .empty committed_system (show empty Index.Sample.system {} = .ok blank from rfl)

/-- A repository that holds one mark. -/
def marked : Repository := (blank.insert (mark 0 5)).2

theorem reachable_marked : Reachable Index.Sample.system marked := reachable_blank.insert (mark 0 5)

/-- A structure of another type system, with the type and the id of the mark. -/
def twin : FeatureStructure := { mark 0 7 with system := 2 }

/-- A structure of another type system, with an id that is not in use. -/
def stranger : FeatureStructure := { mark 8 7 with system := 2 }

end Sample

open Sample (marked twin stranger reachable_marked)
open Index.Sample (mark)

theorem foreign_sample : stranger.builtFor Index.Sample.system = false ∧
    ¬ marked.Shadowed stranger ∧ marked.erase stranger = (false, marked) := by
  have hnone : ¬ marked.Shadowed stranger := by
    show ¬ ∃ e ∈ [mark 0 5], _
    simp [mark, stranger]
  exact ⟨rfl, hnone, (foreign_spec reachable_marked rfl).2.2.2 hnone⟩

/-- A structure of another type system is contained where it shadows a held one, and removing it
removes that one. -/
theorem not_untouched_by_twin :
    Reachable Index.Sample.system marked ∧ twin.builtFor Index.Sample.system = false ∧
      marked.contains twin = true ∧ (marked.erase twin).1 = true ∧
      marked.contains (mark 0 5) = true ∧ (marked.erase twin).2.contains (mark 0 5) = false :=
  ⟨reachable_marked, rfl, by decide, by decide, by decide, by decide⟩

end Repository
end FeatureIndex
