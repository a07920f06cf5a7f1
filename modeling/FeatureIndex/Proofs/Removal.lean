import FeatureIndex.Proofs.Foreign

/-!
# What a removal takes out

Whether there is something to remove is for the bag of everything to decide, and it goes by type and
id. Then each index that covers the type looks for the structure on its own. A bag goes by the id
again, but a leaf in order looks where the keys of the structure would stand, and takes out what it
finds there if that has the id (`Index.Meets`).

`removal_spec` says what each index holds after a removal, and when nothing of that type and id is
left in it. As `not_rid_by_other_keys` shows, ids that come from two sources are enough for an index
to keep what the repository no longer contains.
-/

namespace FeatureIndex

/-! ### Indexes -/

namespace Index

variable {ix : Index} {fs : FeatureStructure}

/-- The index holds nothing of the type and the id of a structure. -/
def Lacks (ix : Index) (fs : FeatureStructure) : Prop :=
  ∀ e ∈ ix.held, e.type = fs.type → e.id.val ≠ fs.id.val

/-- **A removal is complete** when all that has the type and the id stands where the structure
would. -/
theorem lacks_erase_iff (h : ix.Sound) :
    (ix.erase fs).2.Lacks fs ↔ ∀ e ∈ ix.held, e.type = fs.type → e.id.val = fs.id.val →
      leafOrder ix.definition e fs = .eq := by
  constructor
  · intro hlacks e he ht hid
    by_contra hne
    have hkept : e ∈ (ix.erase fs).2.held :=
      (mem_held_erase_iff h fs).mpr ⟨he, fun hmeets => hne hmeets.2.1⟩
    exact hlacks e hkept ht hid
  · intro hall e he ht hid
    obtain ⟨he, hout⟩ := (mem_held_erase_iff h fs).mp he
    exact hout ⟨ht, hall e he ht hid, hid⟩

/-- A bag goes by ids, so what it removes it removes completely. -/
theorem lacks_erase_of_bag (h : ix.Sound) (hkind : ix.kind = .bag) (fs : FeatureStructure) :
    (ix.erase fs).2.Lacks fs := by
  rw [lacks_erase_iff h]
  intro e _ _ hid
  rw [kind] at hkind
  simp only [leafOrder, hkind]
  exact Comparator.compareIds_eq_eq.mpr hid

end Index

/-! ### Repositories -/

namespace Repository

variable {r r' : Repository} {fs : FeatureStructure} {ts : TypeSystem} {ix : Index}

/-- What is held is removed from the bag of everything and from each index. -/
theorem erase_eq (r : Repository) (fs : FeatureStructure) :
    (r.erase fs).2 = { r with
      indexes := if (r.erase fs).1 then r.indexes.map fun ix => (ix.erase fs).2 else r.indexes
      all := (r.all.erase fs).2 } := by
  -- an index that does not cover the type has nothing to remove
  have hindexes : (fun ix : Index => if ix.covers fs.type then (ix.erase fs).2 else ix) =
      fun ix => (ix.erase fs).2 := by
    funext ix
    split
    · rfl
    next hcovers => rw [Index.erase_uncovered (mt Index.covers_iff.mpr hcovers)]
  unfold erase
  split
  next hall => rw [hall, hindexes, if_pos rfl]
  next hall => rw [hall, if_neg Bool.false_ne_true]

/-- **What a removal takes out.** A removal that finds nothing changes nothing. One that finds
something rids the bag of everything of all that has the type and the id, and takes out of each
index what meets the structure there, and nothing else. So nothing of the type and the id is left in
an index exactly when all that it held of them stood where the structure would, as in a bag it
always does. -/
theorem removal_spec (h : Reachable ts r) (fs : FeatureStructure) :
    ((r.erase fs).1 = true ↔ r.Shadowed fs) ∧ ((r.erase fs).1 = false → (r.erase fs).2 = r) ∧
    ((r.erase fs).1 = true → (r.erase fs).2.all.Lacks fs ∧
      ∀ label ix, r.index label = .ok ix → ∃ ix', (r.erase fs).2.index label = .ok ix' ∧
        (∀ e, e ∈ ix'.held ↔ e ∈ ix.held ∧ ¬ ix.Meets fs e) ∧
        (ix'.Lacks fs ↔ ∀ e ∈ ix.held, e.type = fs.type → e.id.val = fs.id.val →
          Index.leafOrder ix.definition e fs = .eq) ∧
        (ix.kind = .bag → ix'.Lacks fs)) := by
  obtain ⟨hr, -⟩ := h.sound
  obtain ⟨hanswer, hsame⟩ := hr.erase_spec fs
  refine ⟨?_, ?_, fun hheld => ⟨?_, fun label ix hix => ?_⟩⟩
  · rw [hanswer, hr.contains_iff]
  · intro hout
    exact hsame (hanswer.symm.trans hout)
  · rw [erase_eq]
    exact Index.lacks_erase_of_bag hr.all (by rw [Index.kind, hr.everything]; rfl) fs
  · have hsound := (hr.indexes ix (mem_of_index hix).1).1
    refine ⟨(ix.erase fs).2, ?_, fun e => Index.mem_held_erase_iff hsound fs,
      Index.lacks_erase_iff hsound, fun hkind => Index.lacks_erase_of_bag hsound hkind fs⟩
    exact index_map (f := fun ix => (ix.erase fs).2) (fun ix => ix.label_apply (.erase fs))
      (by rw [erase_eq, if_pos hheld]) hix

namespace Sample

open Index.Sample (definition mark)

/-- A repository with an index that holds one mark. -/
def indexed : Repository := [.define definition, .insert (mark 0 5)].foldl Op.apply blank

theorem reachable_indexed : Reachable Index.Sample.system indexed :=
  (reachable_blank.define fun _ => rfl).insert (mark 0 5)

end Sample

open Sample (indexed reachable_indexed)
open Index.Sample (mark)

/-- The mark is removed by a handle with its own keys, and nothing of its id is left. -/
theorem removal_sample : Reachable Index.Sample.system indexed ∧
    (indexed.erase (mark 0 5)).1 = true ∧ (indexed.erase (mark 0 5)).2.all.Lacks (mark 0 5) :=
  ⟨reachable_indexed, by decide, ((removal_spec reachable_indexed (mark 0 5)).2.2 (by decide)).1⟩

/-- A handle with the id of the mark and another place removes it from the repository, but the index
keeps it: nothing stands at that place. -/
theorem not_rid_by_other_keys :
    Reachable Index.Sample.system indexed ∧ (mark 0 7).builtFor Index.Sample.system = true ∧
      (indexed.erase (mark 0 7)).1 = true ∧
      ∃ ix, (indexed.erase (mark 0 7)).2.index "marks" = .ok ix ∧ ¬ ix.Lacks (mark 0 7) := by
  refine ⟨reachable_indexed, rfl, by decide, _, rfl, ?_⟩
  intro hlacks
  exact hlacks (mark 0 5) (by decide) rfl rfl

end Repository
end FeatureIndex
