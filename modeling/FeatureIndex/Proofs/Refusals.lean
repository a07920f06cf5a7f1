import FeatureIndex.Proofs.Removal
import FeatureIndex.Proofs.Representation

/-!
# What a repository refuses

A repository looks at a structure once, before anything is changed: it refuses one that was built
for another type system, and one whose type does not exist. Past that check nothing fails any more.
The bag of everything has a leaf for every type, and an index is only asked when it covers the type,
so `insertCovering` never fails half-way and what would take a structure out again is never needed
(`Sound.insertCovering_eq_ok`).

A definition is refused for its label, for its type system, or for its type, in this order. The new
index takes what the repository has of its type without a failure (`Sound.exists_structuresOf`,
`exists_fill`).

`refusal_spec` puts this together for every reachable repository.
-/

namespace FeatureIndex

theorem TypeSystem.Committed.subtypes_eq_error {ts : TypeSystem} {t : TypeCode} (h : ts.Committed)
    (ht : ts.size ≤ t.index) : ts.subtypes t = .error (.invalidTypeCode t.code) := by
  cases hsub : ts.subtypes t with
  | ok l => exact absurd (h.index_lt_of_subtypes hsub) (Nat.not_lt.mpr ht)
  | error e =>
      unfold subtypes at hsub
      split at hsub
      · cases hsub
      · exact hsub.symm

namespace Index

variable {ix : Index} {fs : FeatureStructure}

theorem exists_insert_eq_ok (h : ix.Sound) (hfs : fs.builtFor ix.system = true)
    (ht : fs.type ∈ ix.types) : ∃ changed, (ix.insert fs).1 = .ok changed := by
  obtain ⟨leaf, hl⟩ := exists_leaf h.nodup ht
  obtain ⟨_, changed, _, -, hok, -, -⟩ := insert_covered h hfs hl
  exact ⟨changed, by rw [hok]⟩

/-- An index that takes structures of its types in turn never fails. -/
theorem exists_fill (h : ix.Sound) {l : List FeatureStructure}
    (hl : ∀ fs ∈ l, fs.builtFor ix.system = true ∧ fs.type ∈ ix.types) :
    ∃ ix', Repository.fill ix l = .ok ix' := by
  induction l generalizing ix with
  | nil => exact ⟨ix, rfl⟩
  | cons fs rest ih =>
      obtain ⟨⟨hfs, ht⟩, hrest⟩ := List.forall_mem_cons.mp hl
      -- the index keeps its types and its type system
      have htypes : (ix.insert fs).2.types = ix.types := types_apply h (.insert fs)
      have hsystem : (ix.insert fs).2.system = ix.system :=
        congrArg Definition.system (definition_apply ix (.insert fs))
      obtain ⟨ix', hok⟩ := ih (sound_insert h fs) (by rw [htypes, hsystem]; exact hrest)
      exact ⟨ix', Repository.fill_cons_eq_ok.mpr ⟨exists_insert_eq_ok h hfs ht, hok⟩⟩

end Index

namespace Repository

variable {r r' : Repository} {fs : FeatureStructure} {d : Definition} {ts : TypeSystem}
  {ix : Index} {e : Error}

/-! ### Structures -/

theorem check_eq_error_iff : r.check fs = .error e ↔
    (fs.builtFor r.system = false ∧ e = .foreignTypeSystem (.fs fs.id.val)) ∨
    (fs.builtFor r.system = true ∧ r.system.size ≤ fs.type.index ∧
      e = .invalidTypeCode fs.type.code) := by
  rw [check, ← TypeSystem.info_eq_error_iff]
  cases fs.builtFor r.system with
  | false => simp [eq_comm]
  | true => cases r.system.info fs.type <;> simp [Except.map]

theorem check_eq_ok_iff :
    r.check fs = .ok () ↔ fs.builtFor r.system = true ∧ fs.type.index < r.system.size := by
  rw [check, TypeSystem.info, TypeSystem.size]
  cases fs.builtFor r.system with
  | false => simp
  | true =>
      by_cases ht : fs.type.index < r.system.types.length
      · simp [ht, Except.map]
      · simp [ht, Except.map]

namespace Sound

/-- The bag of everything has a leaf for every type. -/
theorem mem_types_all (h : r.Sound) {t : TypeCode} :
    t ∈ r.all.types ↔ t.index < r.system.size := by
  rw [h.all.mem_types, Index.system, Index.type, h.everything]
  exact h.committed.subsumes_top

theorem system_all (h : r.Sound) : r.all.system = r.system := by
  rw [Index.system, h.everything]
  rfl

/-- **A structure that passes the check goes into the bag of everything and into every index that
covers its type.** None of them fails. -/
theorem insert_eq_ok (h : r.Sound) (hcheck : r.check fs = .ok ()) :
    (∃ new, (r.all.insert fs).1 = .ok new) ∧
      ∀ ix ∈ r.indexes, ix.covers fs.type = true → ∃ changed, (ix.insert fs).1 = .ok changed := by
  obtain ⟨hbuilt, ht⟩ := check_eq_ok_iff.mp hcheck
  constructor
  · exact Index.exists_insert_eq_ok h.all (by rw [h.system_all]; exact hbuilt)
      (h.mem_types_all.mpr ht)
  · intro ix hix hcovers
    obtain ⟨hsound, hsystem⟩ := h.indexes ix hix
    exact Index.exists_insert_eq_ok hsound (by rw [hsystem]; exact hbuilt)
      (Index.covers_iff.mp hcovers)

end Sound

theorem insertCovering_eq_ok {l : List Index}
    (hl : ∀ ix ∈ l, ix.covers fs.type = true → ∃ changed, (ix.insert fs).1 = .ok changed) :
    (insertCovering fs l).1 = .ok () := by
  induction l with
  | nil => rfl
  | cons ix rest ih =>
      obtain ⟨hix, hrest⟩ := List.forall_mem_cons.mp hl
      rw [insertCovering]
      split
      next hcovers =>
        obtain ⟨changed, hok⟩ := hix hcovers
        split
        next => exact ih hrest
        next heq =>
          rw [heq] at hok
          cases hok
      next => exact ih hrest

/-- No index fails half-way, so nothing has to be taken out again. -/
theorem Sound.insertCovering_eq_ok (h : r.Sound) (hcheck : r.check fs = .ok ()) :
    (insertCovering fs r.indexes).1 = .ok () :=
  Repository.insertCovering_eq_ok (h.insert_eq_ok hcheck).2

/-- **Only the check refuses a structure**, and then nothing has changed. -/
theorem Sound.insert_eq_error_iff (h : r.Sound) (fs : FeatureStructure) (e : Error) :
    ((r.insert fs).1 = .error e ↔ r.check fs = .error e) ∧
      ((r.insert fs).1 = .error e → (r.insert fs).2 = r) := by
  cases hcheck : r.check fs with
  | error e' =>
      have hinsert : r.insert fs = (.error e', r) := by rw [insert, hcheck]
      rw [hinsert]
      exact ⟨by simp, fun _ => rfl⟩
  | ok _ =>
      obtain ⟨new, hok⟩ : ∃ new, (r.insert fs).1 = .ok new := by
        obtain ⟨new, hall⟩ := (h.insert_eq_ok hcheck).1
        have hcovering := h.insertCovering_eq_ok hcheck
        rw [insert, hcheck]
        generalize r.all.insert fs = p at hall
        generalize insertCovering fs r.indexes = q at hcovering
        obtain ⟨_, all⟩ := p
        obtain ⟨_, indexes⟩ := q
        cases hall
        cases hcovering
        cases new <;> exact ⟨_, rfl⟩
      rw [hok]
      exact ⟨by simp, by simp⟩

/-! ### Definitions -/

/-- The bag of everything always tells what there is of a type. -/
theorem Sound.exists_structuresOf (h : r.Sound) {t : TypeCode} (ht : t.index < r.system.size) :
    ∃ l, r.structuresOf t true = .ok l ∧
      ∀ fs ∈ l, fs.builtFor r.system = true ∧ r.system.subsumes t fs.type = true := by
  have hunmerged : r.all.definition.kind ≠ .sorted := by
    rw [h.everything]
    exact nofun
  have htell : Index.Tellable r.all.definition r.all.snapshot (Index.asked r.all.system t true) :=
    ⟨fun hsorted => absurd hsorted hunmerged, fun hsorted => absurd hsorted hunmerged⟩
  obtain ⟨it, hok, hs, hbound⟩ := htell.exists_iterate h.all (h.mem_types_all.mpr ht)
  refine ⟨_, by rw [structuresOf, hok]; rfl, ?_⟩
  intro fs hfs
  rw [Iter.collect_eq hs, hbound, Index.mem_listing] at hfs
  obtain ⟨u, hu, hfs⟩ := hfs
  obtain ⟨hheld, rfl⟩ := h.all.mem_snapshot.mp hfs
  obtain ⟨leaf, hl, hmem⟩ := h.all.mem_held.mp hheld
  have hbuilt := ((h.all.housed_leaf hl).2 fs hmem).2
  have hsub := (Index.mem_asked h.all).mp hu
  rw [h.system_all] at hbuilt hsub
  exact ⟨hbuilt, hsub⟩

theorem any_label_iff {label : String} :
    (r.indexes.any fun ix => ix.label == label) = true ↔ label ∈ r.labels := by
  simp [labels]

/-- A definition with a new label, of the type system, and of a type that exists is accepted. -/
theorem Sound.exists_define (h : r.Sound) (hlabel : d.label ∉ r.labels)
    (hsystem : d.system = r.system) (ht : d.type.index < r.system.size) :
    ∃ r', r.define d = (.ok (), r') := by
  have hcommitted : d.system.Committed := hsystem ▸ h.committed
  obtain ⟨ix₀, hempty⟩ : ∃ ix₀, Index.empty d r.config = .ok ix₀ :=
    ⟨_, by rw [Index.empty, hcommitted.subtypes_eq (hsystem ▸ ht)]; rfl⟩
  have hsound := Index.sound_empty hcommitted hempty
  obtain ⟨rfl, -⟩ := Index.held_empty hempty
  obtain ⟨l, hl, hmem⟩ := h.exists_structuresOf ht
  obtain ⟨ix, hfill⟩ := Index.exists_fill hsound (l := l) fun fs hfs => by
    rw [hsound.mem_types, show ix₀.system = r.system from hsystem]
    exact hmem fs hfs
  have hfilled : r.filled ix₀.definition = .ok ix := by
    rw [filled, if_neg (mt any_label_iff.mp hlabel),
      if_neg (not_not.mpr (congrArg TypeSystem.uid hsystem))]
    exact bind_eq_ok.mpr ⟨ix₀, hempty, bind_eq_ok.mpr ⟨l, hl, hfill⟩⟩
  exact ⟨{ r with indexes := r.indexes ++ [ix] }, by rw [Repository.define, hfilled]⟩

/-- **A definition is refused** for its label, else for its type system, else for its type. -/
theorem Sound.define_eq_error_iff (h : r.Sound) (hd : d.system.uid = r.system.uid →
    d.system = r.system) : (r.define d).1 = .error e ↔
      (d.label ∈ r.labels ∧ e = .duplicateIndexLabel d.label) ∨
      (d.label ∉ r.labels ∧ d.system.uid ≠ r.system.uid ∧
        e = .foreignTypeSystem (.index d.label)) ∨
      (d.label ∉ r.labels ∧ d.system.uid = r.system.uid ∧ r.system.size ≤ d.type.index ∧
        e = .invalidTypeCode d.type.code) := by
  by_cases hlabel : d.label ∈ r.labels
  · have hdefine : r.define d = (.error (.duplicateIndexLabel d.label), r) := by
      rw [Repository.define, filled, if_pos (any_label_iff.mpr hlabel)]
      rfl
    simp [hdefine, hlabel, eq_comm]
  · by_cases huid : d.system.uid = r.system.uid
    · by_cases ht : d.type.index < r.system.size
      · obtain ⟨r', hok⟩ := h.exists_define hlabel (hd huid) ht
        simp [hok, hlabel, huid, Nat.not_le.mpr ht]
      · have htype := Nat.not_lt.mp ht
        have hdefine : r.define d = (.error (.invalidTypeCode d.type.code), r) := by
          rw [Repository.define, filled, if_neg (mt any_label_iff.mp hlabel),
            if_neg (not_not.mpr huid), Index.empty, hd huid, h.committed.subtypes_eq_error htype]
          rfl
        simp [hdefine, hlabel, huid, htype, eq_comm]
    · have hdefine : r.define d = (.error (.foreignTypeSystem (.index d.label)), r) := by
        rw [Repository.define, filled, if_neg (mt any_label_iff.mp hlabel), if_pos huid]
        rfl
      simp [hdefine, hlabel, huid, eq_comm]

/-! ### What is refused -/

/-- **A repository refuses up front, and what it refuses changes nothing.** Adding fails exactly for
a structure of another type system, or else of a type that does not exist. Past that, neither the
bag of everything nor an index that covers the type fails. Defining an index fails exactly for a
label in use, else for a definition over another type system, else for a type that does not
exist. -/
theorem refusal_spec (h : Reachable ts r) :
    (∀ fs e, ((r.insert fs).1 = .error e ↔
        (fs.builtFor ts = false ∧ e = .foreignTypeSystem (.fs fs.id.val)) ∨
        (fs.builtFor ts = true ∧ ts.size ≤ fs.type.index ∧ e = .invalidTypeCode fs.type.code)) ∧
      ((r.insert fs).1 = .error e → (r.insert fs).2 = r)) ∧
    (∀ fs, fs.builtFor ts = true → fs.type.index < ts.size →
      (∃ new, (r.all.insert fs).1 = .ok new) ∧
      (∀ ix ∈ r.indexes, ix.covers fs.type = true → ∃ changed, (ix.insert fs).1 = .ok changed) ∧
      (insertCovering fs r.indexes).1 = .ok ()) ∧
    (∀ d e, (d.system.uid = ts.uid → d.system = ts) →
      ((r.define d).1 = .error e ↔
        (d.label ∈ r.labels ∧ e = .duplicateIndexLabel d.label) ∨
        (d.label ∉ r.labels ∧ d.system.uid ≠ ts.uid ∧ e = .foreignTypeSystem (.index d.label)) ∨
        (d.label ∉ r.labels ∧ d.system.uid = ts.uid ∧ ts.size ≤ d.type.index ∧
          e = .invalidTypeCode d.type.code)) ∧
      ((r.define d).1 = .error e → (r.define d).2 = r)) := by
  obtain ⟨hr, rfl⟩ := h.sound
  refine ⟨fun fs e => ?_, fun fs hbuilt ht => ?_, fun d e hd => ⟨hr.define_eq_error_iff hd, ?_⟩⟩
  · obtain ⟨hiff, hsame⟩ := hr.insert_eq_error_iff fs e
    exact ⟨hiff.trans check_eq_error_iff, hsame⟩
  · have hcheck : r.check fs = .ok () := check_eq_ok_iff.mpr ⟨hbuilt, ht⟩
    obtain ⟨hall, hcovering⟩ := hr.insert_eq_ok hcheck
    exact ⟨hall, hcovering, insertCovering_eq_ok hcovering⟩
  · intro herror
    obtain ⟨ix, -, hdefine⟩ | ⟨e', -, hdefine⟩ := r.define_cases d
    · rw [hdefine] at herror
      cases herror
    · rw [hdefine]

open Index.Sample (mark definition)
open Sample (indexed stranger reachable_indexed)

/-- Each of the refusals, by the repository with the index of marks. -/
theorem refusal_sample : Reachable Index.Sample.system indexed ∧
    (indexed.insert stranger).2 = indexed ∧
    (indexed.insert { mark 1 7 with type := ⟨9⟩ }).1 = .error (.invalidTypeCode 10) ∧
    (insertCovering (mark 1 7) indexed.indexes).1 = .ok () ∧
    (indexed.define definition).1 = .error (.duplicateIndexLabel "marks") ∧
    (indexed.define (.bag "others" Index.Sample.system ⟨9⟩)).1 = .error (.invalidTypeCode 10) := by
  obtain ⟨hinsert, hcovering, hdefine⟩ := refusal_spec reachable_indexed
  refine ⟨reachable_indexed, ?_, ?_, ?_, ?_, ?_⟩
  · exact (hinsert stranger _).2 ((hinsert stranger _).1.mpr (.inl ⟨rfl, rfl⟩))
  · exact (hinsert _ _).1.mpr (.inr ⟨rfl, by decide, rfl⟩)
  · exact (hcovering (mark 1 7) rfl (by decide)).2.2
  · exact (hdefine _ _ fun _ => rfl).1.mpr (.inl ⟨by decide, rfl⟩)
  · exact (hdefine _ _ fun _ => rfl).1.mpr (.inr (.inr ⟨by decide, rfl, by decide, rfl⟩))

end Repository
end FeatureIndex
