import FeatureIndex.Proofs.Removal
import FeatureIndex.Proofs.Uniqueness

/-!
# What stands for the keys of a repository

A set index holds one structure for each key, where the repository contains as many as were added.
Those of one type and key are `Twins`, and one of them stands for all. The repository does not
choose another one when it is removed, so its twins are left without one until a new twin is added.

`represents_spec` says exactly that: a structure that the repository contains has a twin in the set,
unless it is `Bereft`. Each operation has its effect on what the set holds (`Mirrored.insert` and
its companions), and `Standing.apply` puts them together. `not_represented` shows a structure that
loses its twin.
-/

namespace FeatureIndex

variable {d : Definition} {a b c : FeatureStructure}

/-- Structures of one exact type and one key. -/
def Definition.Twins (d : Definition) (a b : FeatureStructure) : Prop :=
  a.type = b.type ∧ d.comparator.compare a b = .eq

instance (d : Definition) (a b : FeatureStructure) : Decidable (d.Twins a b) :=
  inferInstanceAs (Decidable (_ ∧ _))

namespace Definition.Twins

@[simp] theorem refl (d : Definition) (a : FeatureStructure) : d.Twins a a :=
  ⟨rfl, Std.ReflCmp.compare_self⟩

theorem symm (h : d.Twins a b) : d.Twins b a := ⟨h.1.symm, Std.OrientedCmp.eq_symm h.2⟩

theorem trans (h : d.Twins a b) (h' : d.Twins b c) : d.Twins a c :=
  ⟨h.1.trans h'.1, Std.TransCmp.eq_trans h.2 h'.2⟩

end Definition.Twins

/-! ### Set indexes -/

namespace Index

variable {ix ix' : Index} {fs : FeatureStructure}

/-- The leaf of its type holds something that is key-equal to a structure. -/
def Represents (ix : Index) (fs : FeatureStructure) : Prop :=
  ∃ e ∈ (ix.snapshot fs.type).elements, ix.definition.comparator.compare e fs = .eq

instance (ix : Index) (fs : FeatureStructure) : Decidable (ix.Represents fs) :=
  inferInstanceAs (Decidable (∃ e ∈ _, _))

theorem represents_iff (h : ix.Sound) :
    ix.Represents fs ↔ ∃ e ∈ ix.held, ix.definition.Twins e fs := by
  simp only [Represents, Definition.Twins, h.mem_snapshot, and_assoc]

/-- In a set no structure is held beside its twin. -/
theorem eq_of_twins (h : ix.Sound) (hkind : ix.kind = .set) (ha : a ∈ ix.held) (hb : b ∈ ix.held)
    (hab : ix.definition.Twins a b) : a = b := by
  have hascending := ascending_snapshot h b.type
  rw [leafOrder_of_set hkind] at hascending
  exact hascending.eq_of_compare (h.mem_snapshot.mpr ⟨ha, hab.1⟩) (h.mem_snapshot.mpr ⟨hb, rfl⟩)
    hab.2

/-- Nothing but the new structure comes in. -/
theorem mem_of_held_insert (h : ix.Sound) (ha : a ∈ (ix.insert fs).2.held) :
    a = fs ∨ a ∈ ix.held := by
  by_cases hfs : fs.builtFor ix.system = true ∧ fs.type ∈ ix.types
  · obtain ⟨leaf, hl⟩ := exists_leaf h.nodup hfs.2
    obtain ⟨i, changed, m, hi, hok, -, hins⟩ := insert_covered h hfs.1 hl
    have hsound := sound_insert h fs
    rw [hok] at hsound ha
    rw [mem_held_setLeaf h hi hsound] at ha
    split at ha
    next ht =>
      refine (hins.mem ha).imp_right fun hleaf => h.mem_held.mpr ⟨leaf, ?_, hleaf⟩
      rw [ht, hl]
    next => exact .inr ha
  · obtain ⟨e, hok⟩ := insert_refused hfs
    rw [hok] at ha
    exact .inr ha

/-- **An insertion into a set represents the structure**, and goes on to represent all others. -/
theorem represents_insert (h : ix.Sound) (hkind : ix.kind = .set)
    (hfs : fs.builtFor ix.system = true) (ht : fs.type ∈ ix.types) (x : FeatureStructure) :
    (ix.insert fs).2.Represents x ↔ ix.Represents x ∨ ix.definition.Twins fs x := by
  obtain ⟨leaf, hl⟩ := exists_leaf h.nodup ht
  obtain ⟨i, changed, m, hi, hok, -, hins⟩ := insert_covered h hfs hl
  rw [hok, Represents, Represents, Definition.Twins]
  show (∃ e ∈ ((ix.setLeaf i m).snapshot x.type).elements, ix.definition.comparator.compare e x =
    .eq) ↔ _
  have hleaf := leaf?_setLeaf h.nodup hi m x.type
  by_cases htype : x.type = fs.type
  · rw [if_pos htype] at hleaf
    rw [snapshot_eq hleaf, htype, snapshot_eq hl, Leaf.snapshot_elements, Leaf.snapshot_elements,
      ← leafOrder_of_set hkind, ← h.order_eq hl, hins.exists_equal_iff x, and_iff_right rfl]
  · rw [if_neg htype] at hleaf
    simp only [snapshot, hleaf, Ne.symm htype, false_and, or_false]

/-- **A removal from a set leaves the twins of the structure unrepresented** if it was held. -/
theorem represents_erase (h : ix.Sound) (hkind : ix.kind = .set)
    (hid : ∀ e ∈ ix.held, e.id.val = fs.id.val → e = fs) (x : FeatureStructure) :
    (ix.erase fs).2.Represents x ↔
      ix.Represents x ∧ ¬ (fs ∈ ix.held ∧ ix.definition.Twins fs x) := by
  have hdefinition : (ix.erase fs).2.definition = ix.definition :=
    definition_apply ix (.erase fs)
  simp only [represents_iff (sound_erase h fs), represents_iff h, hdefinition, mem_held_erase_iff h]
  constructor
  · rintro ⟨e, ⟨he, hout⟩, hex⟩
    refine ⟨⟨e, he, hex⟩, fun ⟨hfs, hfx⟩ => hout ((meets_iff hid he).mpr ?_)⟩
    exact eq_of_twins h hkind he hfs (hex.trans hfx.symm)
  · rintro ⟨⟨e, he, hex⟩, hkept⟩
    refine ⟨e, ⟨he, fun hout => hkept ?_⟩, hex⟩
    obtain rfl := (meets_iff hid he).mp hout
    exact ⟨he, hex⟩

/-- A set that takes structures in turn represents them all. -/
theorem represents_fill (h : ix.Sound) (hkind : ix.kind = .set) {l : List FeatureStructure}
    (hl : ∀ a ∈ l, a.builtFor ix.system = true ∧ a.type ∈ ix.types)
    (hok : Repository.fill ix l = .ok ix') :
    ix'.definition = ix.definition ∧ (∀ e ∈ ix'.held, e ∈ ix.held ∨ e ∈ l) ∧
      ∀ x, ix'.Represents x ↔ ix.Represents x ∨ ∃ a ∈ l, ix.definition.Twins a x := by
  induction l generalizing ix with
  | nil =>
      cases hok
      exact ⟨rfl, fun e he => .inl he, fun x => by simp⟩
  | cons fs rest ih =>
      obtain ⟨⟨hfs, ht⟩, hrest⟩ := List.forall_mem_cons.mp hl
      have hdefinition : (ix.insert fs).2.definition = ix.definition :=
        definition_apply ix (.insert fs)
      have htypes : (ix.insert fs).2.types = ix.types := types_apply h (.insert fs)
      obtain ⟨-, hfill⟩ := Repository.fill_cons_eq_ok.mp hok
      obtain ⟨hsame, hheld, hrepresents⟩ := ih (sound_insert h fs)
        (by rw [kind, hdefinition]; exact hkind)
        (fun a ha => by rw [system, hdefinition, htypes]; exact hrest a ha) hfill
      refine ⟨hsame.trans hdefinition, fun e he => ?_, fun x => ?_⟩
      · rcases hheld e he with he | he
        · rcases mem_of_held_insert h he with rfl | he
          · exact .inr List.mem_cons_self
          · exact .inl he
        · exact .inr (List.mem_cons_of_mem _ he)
      · rw [hrepresents, represents_insert h hkind hfs ht, hdefinition, or_assoc]
        simp

end Index

namespace Repository

variable {r r' : Repository} {fs : FeatureStructure} {ts : TypeSystem} {S : Set FeatureStructure}
  {H : Finset FeatureStructure} {ix : Index}

/-! ### The indexes after an insertion -/

theorem insertCovering_eq {l : List Index} (hok : (insertCovering fs l).1 = .ok ()) :
    (insertCovering fs l).2 = l.map fun ix => (ix.insert fs).2 := by
  induction l with
  | nil => rfl
  | cons ix rest ih =>
      rw [insertCovering] at hok ⊢
      by_cases hcovers : ix.covers fs.type = true
      · rw [if_pos hcovers] at hok ⊢
        rw [List.map_cons]
        generalize ix.insert fs = p at hok ⊢
        obtain ⟨outcome, ix'⟩ := p
        cases outcome with
        | error e => cases hok
        | ok _ => exact congrArg (ix' :: ·) (ih hok)
      · rw [if_neg hcovers] at hok ⊢
        -- an index that does not cover the type refuses the structure
        obtain ⟨e, hrefused⟩ : ∃ e, ix.insert fs = (.error e, ix) :=
          Index.insert_refused fun h => hcovers (Index.covers_iff.mpr h.2)
        rw [List.map_cons, hrefused]
        exact congrArg (ix :: ·) (ih hok)

/-- What is new goes into the bag of everything and into each index. -/
theorem insert_eq {changed : Bool} (hok : (r.insert fs).1 = .ok changed) :
    (r.insert fs).2 = { r with
      indexes := if changed then r.indexes.map fun ix => (ix.insert fs).2 else r.indexes
      all := (r.all.insert fs).2 } := by
  have hindexes := @insertCovering_eq fs r.indexes
  unfold insert at hok ⊢
  cases hcheck : r.check fs with
  | error e =>
      rw [hcheck] at hok
      cases hok
  | ok _ =>
      simp only [hcheck] at hok ⊢
      generalize r.all.insert fs = p at hok ⊢
      obtain ⟨outcome, all⟩ := p
      generalize insertCovering fs r.indexes = q at hok hindexes ⊢
      obtain ⟨covered, indexes⟩ := q
      cases outcome with
      | error e => cases hok
      | ok new =>
          cases new with
          | false =>
              cases hok
              rfl
          | true =>
              cases covered with
              | error e => cases hok
              | ok _ =>
                  cases hok
                  obtain rfl := hindexes rfl
                  rfl

/-! ### The index of a definition -/

/-- The index of a definition, which holds structures of `H` only. -/
structure Backed (d : Definition) (H : Finset FeatureStructure) (r : Repository) (ix : Index) :
    Prop where
  found : r.index d.label = .ok ix
  definition : ix.definition = d
  held : ∀ e ∈ ix.held, e ∈ H

namespace Backed

theorem mirrors (hix : Backed d H r ix) (h : Agrees ts S H r) : Mirrors ts H ix :=
  h.indexes ix (mem_of_index hix.found).1

theorem mem_types (hix : Backed d H r ix) (h : Agrees ts S H r) {t : TypeCode} :
    t ∈ ix.types ↔ ts.subsumes d.type t = true := by
  rw [(hix.mirrors h).mem_types, Index.type, hix.definition]

theorem known (hix : Backed d H r ix) (h : Agrees ts S H r) (hS : Population ts S) (hfs : fs ∈ S) :
    ∀ e ∈ ix.held, e.id.val = fs.id.val → e = fs := fun e he hid =>
  hS.known e (h.among e (hix.held e he)) fs hfs hid

/-- **Adding** represents the structure, if it is new. -/
theorem insert (hix : Backed d H r ix) (h : Agrees ts S H r) (hS : Population ts S)
    (hkind : d.kind = .set) (hfs : fs ∈ S) :
    ∃ ix', Backed d (Insert.insert fs H) (r.insert fs).2 ix' ∧
      ∀ x, ts.subsumes d.type x.type = true →
        (ix'.Represents x ↔ ix.Represents x ∨ (d.Twins fs x ∧ fs ∉ H)) := by
  have hok := (h.insert hS hfs).1
  have hr := insert_eq hok
  have hmirrors := hix.mirrors h
  obtain ⟨hfound, rfl, hheld⟩ := hix
  by_cases hin : fs ∈ H
  · -- the indexes are not told of it
    refine ⟨ix, ⟨?_, rfl, fun e he => Finset.mem_insert_of_mem (hheld e he)⟩, ?_⟩
    · rw [hr]
      simp only [hin, not_true_eq_false, decide_false, Bool.false_eq_true, ↓reduceIte]
      exact hfound
    · simp [hin]
  · refine ⟨(ix.insert fs).2, ⟨?_, Index.definition_apply ix (.insert fs), fun e he => ?_⟩, ?_⟩
    · exact index_map (f := fun ix => (ix.insert fs).2) (fun ix => ix.label_apply (.insert fs))
        (by rw [hr]; simp [hin]) hfound
    · rcases Index.mem_of_held_insert hmirrors.sound he with rfl | he
      · exact Finset.mem_insert_self _ _
      · exact Finset.mem_insert_of_mem (hheld e he)
    · intro x hx
      simp only [hin, not_false_eq_true, and_true]
      have hbuilt : fs.builtFor ix.system = true := by
        rw [hmirrors.system]
        exact hS.built fs hfs
      by_cases ht : fs.type ∈ ix.types
      · exact Index.represents_insert hmirrors.sound hkind hbuilt ht x
      · obtain ⟨e, hrefused⟩ : ∃ e, ix.insert fs = (.error e, ix) :=
          Index.insert_refused fun hor => ht hor.2
        rw [hrefused]
        refine (or_iff_left fun htwins => ht ?_).symm
        rw [htwins.1, hmirrors.mem_types]
        exact hx

/-- **Removing** leaves the twins of the structure unrepresented, if it was what the index held. -/
theorem erase (hix : Backed d H r ix) (h : Agrees ts S H r) (hS : Population ts S)
    (hkind : d.kind = .set) (hfs : fs ∈ S) :
    ∃ ix', Backed d (H.erase fs) (r.erase fs).2 ix' ∧
      ∀ x, ix'.Represents x ↔ ix.Represents x ∧ ¬ (fs ∈ ix.held ∧ d.Twins fs x) := by
  have hanswer := (h.erase hS hfs).1
  have hr := erase_eq r fs
  have hmirrors := hix.mirrors h
  have hknown := hix.known h hS hfs
  obtain ⟨hfound, rfl, hheld⟩ := hix
  by_cases hin : fs ∈ H
  · refine ⟨(ix.erase fs).2, ⟨?_, Index.definition_apply ix (.erase fs), fun e he => ?_⟩,
      Index.represents_erase hmirrors.sound hkind hknown⟩
    · exact index_map (f := fun ix => (ix.erase fs).2) (fun ix => ix.label_apply (.erase fs))
        (by rw [hr, hanswer]; simp [hin]) hfound
    · obtain ⟨he, hout⟩ := (Index.mem_held_erase_iff hmirrors.sound fs).mp he
      refine Finset.mem_erase.mpr ⟨?_, hheld e he⟩
      rintro rfl
      exact hout (ix.meets_self e)
  · -- what is not contained is not held either
    have hout : fs ∉ ix.held := fun hfs => hin (hheld fs hfs)
    refine ⟨ix, ⟨?_, rfl, ?_⟩, fun x => by simp [hout]⟩
    · rw [hr, hanswer]
      simp only [hin, decide_false, Bool.false_eq_true, ↓reduceIte]
      exact hfound
    · rw [Finset.erase_eq_of_notMem hin]
      exact hheld

/-- Removing structures of other types keeps what stands for a structure. -/
theorem eraseAll (hix : Backed d H r ix) (h : Agrees ts S H r) (hS : Population ts S)
    (hkind : d.kind = .set) {l : List FeatureStructure} (hl : ∀ fs ∈ l, fs ∈ S) :
    ∃ ix', Backed d (H \ l.toFinset) (r.eraseAll l) ix' ∧
      ∀ x, (∀ a ∈ l, a.type ≠ x.type) → (ix'.Represents x ↔ ix.Represents x) := by
  induction l generalizing r H ix with
  | nil =>
      rw [List.toFinset_nil, Finset.sdiff_empty]
      exact ⟨ix, hix, fun _ _ => .rfl⟩
  | cons fs rest ih =>
      obtain ⟨hfs, hrest⟩ := List.forall_mem_cons.mp hl
      obtain ⟨ix₁, hix₁, hrepresents₁⟩ := hix.erase h hS hkind hfs
      obtain ⟨ix₂, hix₂, hrepresents₂⟩ := ih hix₁ (h.erase hS hfs).2 hrest
      refine ⟨ix₂, ?_, fun x hx => ?_⟩
      · rw [List.toFinset_cons, Finset.sdiff_insert, ← Finset.erase_sdiff_comm]
        exact hix₂
      · obtain ⟨hne, hx⟩ := List.forall_mem_cons.mp hx
        rw [hrepresents₂ x hx, hrepresents₁]
        exact and_iff_left fun hlost => hne hlost.2.1

/-- **Removing a type** keeps what stands for the structures that remain. -/
theorem eraseType (hix : Backed d H r ix) (h : Agrees ts S H r) (hS : Population ts S)
    (hkind : d.kind = .set) (t : TypeCode) (withSubtypes : Bool) :
    ∃ ix', Backed d (H.filter fun fs => !takes ts t withSubtypes fs.type)
        (Op.apply r (.eraseType t withSubtypes)) ix' ∧
      ∀ x, takes ts t withSubtypes x.type = false → (ix'.Represents x ↔ ix.Represents x) := by
  obtain ⟨l, hr, hl⟩ := h.eraseType_eq hS t withSubtypes
  obtain ⟨ix', hix', hrepresents⟩ :=
    hix.eraseAll h hS hkind fun fs hfs => h.among fs ((hl fs).mp hfs).1
  rw [hr, ← Agrees.sdiff_toFinset_eq_filter hl]
  refine ⟨ix', hix', fun x hx => hrepresents x fun a ha hax => ?_⟩
  rw [← hax, ((hl a).mp ha).2] at hx
  cases hx

theorem reset (hix : Backed d H r ix) : Backed d ∅ r.reset ix.clear where
  found := index_map (f := Index.clear) (fun _ => rfl) rfl hix.found
  definition := hix.definition
  held := by simp

/-- Another definition comes behind the index. -/
theorem define (hix : Backed d H r ix) {d' : Definition} (hok : r.define d' = (.ok (), r')) :
    Backed d H r' ix := by
  obtain ⟨-, -, ix₀, l, jx, -, -, -, rfl⟩ := define_eq_ok hok
  refine ⟨?_, hix.definition, hix.held⟩
  rw [index_eq_ok_iff, List.find?_append, index_eq_ok_iff.mp hix.found]
  rfl

/-- A new index of a set represents all that the repository contains of its types. -/
theorem of_define (h : Agrees ts S H r) (hS : Population ts S) (hkind : d.kind = .set)
    (hd : d.system.uid = ts.uid → d.system = ts) (hok : r.define d = (.ok (), r')) :
    ∃ ix, Backed d H r' ix ∧
      ∀ fs ∈ H, ts.subsumes d.type fs.type = true → ix.Represents fs := by
  obtain ⟨hlabel, ix₀, l, ix, hempty, hmirrors, rfl, hfill, hmem, htake, rfl⟩ :=
    h.define_eq_ok hS hd hok
  have hnone := (Index.held_empty hempty).2
  have htake : ∀ a ∈ l, a.builtFor ix₀.system = true ∧ a.type ∈ ix₀.types := fun a ha => by
    rw [hmirrors.system]
    exact ⟨hS.built a (htake a ha).1, (htake a ha).2⟩
  obtain ⟨hdefinition, hheld, hrepresents⟩ :=
    Index.represents_fill hmirrors.sound hkind htake hfill
  refine ⟨ix, ⟨?_, hdefinition, fun e he => ?_⟩, fun fs hfs hcovered => ?_⟩
  · have hnew : r.indexes.find? (fun ix => ix.label == ix₀.definition.label) = none := by
      rw [List.find?_eq_none]
      intro jx hjx
      simpa using hlabel jx hjx
    have hown : ix.label = ix₀.definition.label := congrArg Definition.label hdefinition
    rw [index_eq_ok_iff, List.find?_append, hnew, Option.none_or]
    simp [hown]
  · have hin := hheld e he
    rw [hnone] at hin
    exact ((hmem e).mp (hin.resolve_left List.not_mem_nil)).1
  · exact (hrepresents fs).mpr (.inr ⟨fs, (hmem fs).mpr ⟨hfs, hcovered⟩, .refl _ fs⟩)

end Backed

/-! ### Structures that are left without a twin -/

/-- Whether the key of a structure is left without a representative by an operation, given whether
it was before: the one that the index held is removed, and no new twin is added. -/
def Op.bereft (d : Definition) (fs : FeatureStructure) (r : Repository) (lost : Prop) : Op → Prop
  | insert a => lost ∧ ¬ (d.Twins a fs ∧ (r.insert a).1 = .ok true)
  | erase a => lost ∨ (d.Twins a fs ∧ ∃ ix, r.index d.label = .ok ix ∧ a ∈ ix.held)
  | define _ | eraseType _ _ | reset => lost

/-- The same after some operations in turn. -/
def Bereft (d : Definition) (fs : FeatureStructure) : Repository → Prop → List Op → Prop
  | _, lost, [] => lost
  | r, lost, op :: rest => Bereft d fs (op.apply r) (op.bereft d fs r lost) rest

/-- The index of a definition represents what is contained of its types, but for what is lost. -/
def Standing (ts : TypeSystem) (d : Definition) (H : Finset FeatureStructure)
    (lost : FeatureStructure → Prop) (r : Repository) : Prop :=
  ∃ ix, Backed d H r ix ∧
    ∀ fs ∈ H, ts.subsumes d.type fs.type = true → (ix.Represents fs ↔ ¬ lost fs)

variable {lost : FeatureStructure → Prop}

/-- **Each operation keeps the index standing.** -/
theorem Standing.apply (hst : Standing ts d H lost r) (h : Agrees ts S H r) (hS : Population ts S)
    (hkind : d.kind = .set) {op : Op} (hop : op.Over ts S) :
    Standing ts d (op.keep ts H) (fun fs => op.bereft d fs r (lost fs)) (op.apply r) := by
  obtain ⟨ix, hix, hlost⟩ := hst
  cases op with
  | define d' =>
      refine ⟨ix, ?_, hlost⟩
      obtain ⟨jx, -, hok⟩ | ⟨e, -, herror⟩ := r.define_cases d'
      · rw [Op.apply, hok]
        exact hix.define hok
      · rw [Op.apply, herror]
        exact hix
  | insert a =>
      rw [Op.keep, Op.apply]
      simp only [Op.bereft]
      split
      next hbuilt =>
        obtain ⟨ix', hix', hrepresents⟩ := hix.insert h hS hkind (hop hbuilt)
        refine ⟨ix', hix', fun fs hfs hcovered => ?_⟩
        rw [hrepresents fs hcovered, (h.insert hS (hop hbuilt)).1]
        rcases Finset.mem_insert.mp hfs with rfl | hfs
        · by_cases hin : fs ∈ H
          · rw [hlost fs hin hcovered]
            simp [hin]
          · simp [hin]
        · rw [hlost fs hfs hcovered]
          simp only [Except.ok.injEq, decide_eq_true_eq]
          tauto
      next hforeign =>
        rw [h.insert_foreign (Bool.eq_false_iff.mpr hforeign)]
        refine ⟨ix, hix, fun fs hfs hcovered => ?_⟩
        rw [hlost fs hfs hcovered]
        simp
  | erase a =>
      obtain ⟨ix', hix', hrepresents⟩ := hix.erase h hS hkind hop
      refine ⟨ix', hix', fun fs hfs hcovered => ?_⟩
      rw [hrepresents, hlost fs (Finset.mem_of_mem_erase hfs) hcovered]
      simp only [Op.bereft, hix.found, Except.ok.injEq, exists_eq_left']
      tauto
  | eraseType t withSubtypes =>
      obtain ⟨ix', hix', hrepresents⟩ := hix.eraseType h hS hkind t withSubtypes
      refine ⟨ix', hix', fun fs hfs hcovered => ?_⟩
      obtain ⟨hfs, hleft⟩ := Finset.mem_filter.mp hfs
      rw [hrepresents fs (by simpa using hleft)]
      exact hlost fs hfs hcovered
  | reset => exact ⟨ix.clear, hix.reset, fun fs hfs => absurd hfs (Finset.notMem_empty fs)⟩

theorem Standing.foldl_apply (hst : Standing ts d H lost r) (h : Agrees ts S H r)
    (hS : Population ts S) (hkind : d.kind = .set) {ops : List Op}
    (hops : ∀ op ∈ ops, op.Over ts S) :
    Standing ts d (ops.foldl (Op.keep ts) H) (fun fs => Bereft d fs r (lost fs) ops)
      (ops.foldl Op.apply r) := by
  induction ops generalizing r H lost with
  | nil => exact hst
  | cons op rest ih =>
      obtain ⟨hop, hrest⟩ := List.forall_mem_cons.mp hops
      exact ih (hst.apply h hS hkind hop) (h.apply hS hop) hrest

/-- **A set index represents what the repository contains, but for what is bereft.** Whatever was
done to a repository before the index of a set was defined, and whatever was done since, with
structures that are known by their ids: the index holds only what the repository contains, and the
leaf of its type holds something key-equal to a contained structure unless the structure is bereft.
Removing another structure leaves it without exactly when that one is its twin and was held. -/
theorem represents_spec {config : Config} {r₀ r₁ : Repository} (hts : ts.Committed)
    (hr : empty ts config = .ok r₀) (hS : Population ts S) (hkind : d.kind = .set)
    (hd : d.system.uid = ts.uid → d.system = ts) {before after : List Op}
    (hbefore : ∀ op ∈ before, op.Over ts S)
    (hok : (before.foldl Op.apply r₀).define d = (.ok (), r₁))
    (hafter : ∀ op ∈ after, op.Over ts S) :
    let r := after.foldl Op.apply r₁
    ∃ ix, r.index d.label = .ok ix ∧ ix.definition = d ∧ (∀ e ∈ ix.held, r.contains e = true) ∧
      ∀ fs ∈ S, r.contains fs = true → ix.covers fs.type = true →
        (ix.Represents fs ↔ ¬ Bereft d fs r₁ False after) ∧
        ∀ a ∈ S, ∃ ix', (r.erase a).2.index d.label = .ok ix' ∧
          (ix'.Represents fs ↔ ix.Represents fs ∧ ¬ (d.Twins a fs ∧ a ∈ ix.held)) := by
  intro r
  have h₀ := (agrees_empty hts hr S).foldl_apply hS hbefore
  obtain ⟨ix₁, hix₁, hall⟩ := Backed.of_define h₀ hS hkind hd hok
  have h₁ : Agrees ts S (before.foldl (Op.keep ts) ∅) r₁ := by
    have hdefined := h₀.define hS hd
    rwa [Op.apply, hok] at hdefined
  have hst : Standing ts d (before.foldl (Op.keep ts) ∅) (fun _ => False) r₁ :=
    ⟨ix₁, hix₁, fun fs hfs hcovered => by simp [hall fs hfs hcovered]⟩
  have h := h₁.foldl_apply hS hafter
  obtain ⟨ix, hix, hlost⟩ := hst.foldl_apply h₁ hS hkind hafter
  refine ⟨ix, hix.found, hix.definition, fun e he => ?_, fun fs hfs hin hcovers => ⟨?_, ?_⟩⟩
  · have heH := hix.held e he
    exact (h.contains_iff hS (h.among e heH)).mpr heH
  · have hcovered := (hix.mem_types h).mp (Index.covers_iff.mp hcovers)
    exact hlost fs ((h.contains_iff hS hfs).mp hin) hcovered
  · intro a ha
    obtain ⟨ix', hix', hrepresents⟩ := hix.erase h hS hkind ha
    refine ⟨ix', hix'.found, ?_⟩
    rw [hrepresents, and_comm (b := d.Twins a fs)]

open Index.Sample (mark onePerPlace committed_system)

/-- Three marks at one place. -/
def crowd : List FeatureStructure := [mark 0 5, mark 1 5, mark 2 5]

theorem population_crowd : Population Index.Sample.system {fs | fs ∈ crowd} where
  built := show ∀ fs ∈ crowd, _ by decide
  typed := show ∀ fs ∈ crowd, _ by decide
  known := show ∀ a ∈ crowd, ∀ b ∈ crowd, _ by decide

/-- When the first mark is gone, the third one comes to stand for the second one. -/
theorem represents_crowd : ∃ r₀ r₁, empty Index.Sample.system {} = .ok r₀ ∧
    ([.insert (mark 0 5)].foldl Op.apply r₀).define onePerPlace = (.ok (), r₁) ∧
    let r := [.insert (mark 1 5), .erase (mark 0 5), .insert (mark 2 5)].foldl Op.apply r₁
    r.contains (mark 1 5) = true ∧
      ∃ ix, r.index "places" = .ok ix ∧ mark 1 5 ∉ ix.held ∧ ix.Represents (mark 1 5) := by
  obtain ⟨r₀, hr⟩ : ∃ r₀, empty Index.Sample.system {} = .ok r₀ := ⟨_, rfl⟩
  obtain ⟨r₁, hok⟩ : ∃ r₁,
      ([.insert (mark 0 5)].foldl Op.apply r₀).define onePerPlace = (.ok (), r₁) := by
    cases hr
    exact ⟨_, rfl⟩
  obtain ⟨ix, hindex, -, -, hrepresents⟩ := represents_spec committed_system hr population_crowd rfl
    (fun _ => rfl) (show ∀ op ∈ [Op.insert (mark 0 5)], _ by simp [Op.Over, crowd]) hok
    (show ∀ op ∈ [Op.insert (mark 1 5), .erase (mark 0 5), .insert (mark 2 5)], _ by
      simp [Op.Over, crowd])
  -- the third mark is new, and a twin of the second one
  have hrenewed : ¬ Bereft onePerPlace (mark 1 5) r₁ False
      [.insert (mark 1 5), .erase (mark 0 5), .insert (mark 2 5)] := by
    intro hbereft
    refine hbereft.2 ⟨by decide, ?_⟩
    cases hr
    cases hok
    rfl
  have hcontains : ([.insert (mark 1 5), .erase (mark 0 5), .insert (mark 2 5)].foldl Op.apply
      r₁).contains (mark 1 5) = true := by
    cases hr
    cases hok
    decide
  have hindexed : ix.covers (mark 1 5).type = true ∧ mark 1 5 ∉ ix.held := by
    cases hr
    cases hok
    cases hindex
    decide
  have hstands := (hrepresents (mark 1 5) (by simp [crowd]) hcontains hindexed.1).1.mpr hrenewed
  exact ⟨r₀, r₁, hr, hok, hcontains, ix, hindex, hindexed.2, hstands⟩

/-- The repository goes on to contain the second mark, but nothing stands for it any more once the
first one, which the index held, is removed. -/
theorem not_represented : Population Index.Sample.system {fs | fs ∈ crowd} ∧
    ∃ r₀, empty Index.Sample.system {} = .ok r₀ ∧
    let ops : List Op :=
      [.define onePerPlace, .insert (mark 0 5), .insert (mark 1 5), .erase (mark 0 5)]
    (∀ op ∈ ops, op.Over Index.Sample.system {fs | fs ∈ crowd}) ∧
      (ops.foldl Op.apply r₀).contains (mark 1 5) = true ∧
      ∃ ix, (ops.foldl Op.apply r₀).index "places" = .ok ix ∧ ix.kind = .set ∧
        ix.covers (mark 1 5).type = true ∧ ¬ ix.Represents (mark 1 5) := by
  refine ⟨population_crowd, _, rfl, ?_, by decide, _, rfl, rfl, by decide, by decide⟩
  simp [Op.Over, crowd, onePerPlace, Definition.system, Definition.set]

end Repository
end FeatureIndex
