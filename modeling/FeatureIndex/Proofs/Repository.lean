import FeatureIndex.Proofs.Iteration
import FeatureIndex.Repository
import Mathlib.Data.Finset.Card

/-!
# Repositories agree with the structures they were given

Beside a repository goes the set of the structures that were added to it and not taken out since.
`Agrees` is the invariant: the bag of everything holds exactly those, and so does every index, as
far as it covers their types. A set index may leave out structures with a key that is taken, so of
that kind only soundness is kept.

Each operation has its spec, and `Agrees.foldl_apply` puts them together: whatever is defined, added
and taken out in whatever order, the repository and the set stay in agreement.
-/

namespace FeatureIndex.Repository

/-! ### Operations -/

/-- An operation on a repository. -/
inductive Op where
  | define (d : Definition)
  | insert (fs : FeatureStructure)
  | erase (fs : FeatureStructure)
  | eraseType (t : TypeCode) (withSubtypes : Bool)
  | reset

/-- The repository after an operation, whether it fails or not. -/
def Op.apply (r : Repository) : Op → Repository
  | define d => (r.define d).2
  | insert fs => (r.insert fs).2
  | erase fs => (r.erase fs).2
  | eraseType t withSubtypes => (r.eraseType t withSubtypes).2
  | reset => r.reset

/-- Whether a removal of type `t` takes out what has type `u`. -/
def takes (ts : TypeSystem) (t : TypeCode) (withSubtypes : Bool) (u : TypeCode) : Bool :=
  if withSubtypes then ts.subsumes t u else u == t

/-- The structures that were added and not taken out since, after an operation. A structure of
another type system is refused. -/
def Op.keep (ts : TypeSystem) (H : Finset FeatureStructure) : Op → Finset FeatureStructure
  | define _ => H
  | insert fs => if fs.builtFor ts then Insert.insert fs H else H
  | erase fs => H.erase fs
  | eraseType t withSubtypes => H.filter fun fs => !takes ts t withSubtypes fs.type
  | reset => ∅

/-- Structures that were built for a type system, where each is known by its id. No structure is
built with a type that its type system does not have. -/
structure Population (ts : TypeSystem) (S : Set FeatureStructure) : Prop where
  built : ∀ fs ∈ S, fs.builtFor ts = true
  typed : ∀ fs ∈ S, fs.type.index < ts.size
  known : ∀ a ∈ S, ∀ b ∈ S, a.id.val = b.id.val → a = b

/-- The operation adds and removes structures of a population, or tries to add one that was built
for another type system. Definitions may come from anywhere, but a type system is the only one of
its `uid`. -/
def Op.Over (ts : TypeSystem) (S : Set FeatureStructure) : Op → Prop
  | define d => d.system.uid = ts.uid → d.system = ts
  | insert fs => fs.builtFor ts = true → fs ∈ S
  | erase fs => fs ∈ S
  | eraseType _ _ | reset => True

theorem fill_cons_eq_ok {ix ix' : Index} {fs : FeatureStructure} {rest : List FeatureStructure} :
    fill ix (fs :: rest) = .ok ix' ↔
      (∃ changed, (ix.insert fs).1 = .ok changed) ∧ fill (ix.insert fs).2 rest = .ok ix' := by
  rw [fill]
  generalize ix.insert fs = p
  obtain ⟨outcome, ix₁⟩ := p
  cases outcome <;> simp

/-- A definition adds the index that is made of it, or fails and changes nothing. -/
theorem define_cases (r : Repository) (d : Definition) :
    (∃ ix, r.filled d = .ok ix ∧
      r.define d = (.ok (), { r with indexes := r.indexes ++ [ix] })) ∨
    (∃ e, r.filled d = .error e ∧ r.define d = (.error e, r)) := by
  rw [define]
  cases r.filled d with
  | ok ix => exact .inl ⟨ix, rfl, rfl⟩
  | error e => exact .inr ⟨e, rfl, rfl⟩

/-- **A definition** that is accepted has a new label and is over the type system; its index starts
empty and takes what the repository has of its type. -/
theorem define_eq_ok {r r' : Repository} {d : Definition} (hok : r.define d = (.ok (), r')) :
    (∀ ix ∈ r.indexes, ix.label ≠ d.label) ∧ d.system.uid = r.system.uid ∧
      ∃ ix₀ l ix, Index.empty d r.config = .ok ix₀ ∧ r.structuresOf d.type true = .ok l ∧
        fill ix₀ l = .ok ix ∧ r' = { r with indexes := r.indexes ++ [ix] } := by
  obtain ⟨ix, hfilled, hdefine⟩ | ⟨e, -, hdefine⟩ := r.define_cases d
  case inr => cases hok.symm.trans hdefine
  cases hok.symm.trans hdefine
  unfold filled at hfilled
  split at hfilled
  · cases hfilled
  next hlabel =>
    split at hfilled
    · cases hfilled
    next huid =>
      obtain ⟨ix₀, hempty, hfilled⟩ := bind_eq_ok.mp hfilled
      obtain ⟨l, hl, hfill⟩ := bind_eq_ok.mp hfilled
      exact ⟨by simpa using hlabel, not_not.mp huid, ix₀, l, ix, hempty, hl, hfill, rfl⟩

/-! ### Indexes that mirror a set -/

/-- A sound index that, unless it is a set, holds the structures of `H` that have its types. -/
structure Mirrors (ts : TypeSystem) (H : Finset FeatureStructure) (ix : Index) : Prop where
  sound : ix.Sound
  system : ix.system = ts
  mem : ix.kind ≠ .set → ∀ fs, fs ∈ ix.held ↔ fs ∈ H ∧ fs.type ∈ ix.types

namespace Mirrors

variable {ts : TypeSystem} {S : Set FeatureStructure} {H K : Finset FeatureStructure} {ix : Index}
  {fs : FeatureStructure}

/-- Only structures of the types of the index count. -/
theorem congr (h : Mirrors ts H ix)
    (hK : ∀ fs : FeatureStructure, fs.type ∈ ix.types → (fs ∈ K ↔ fs ∈ H)) : Mirrors ts K ix where
  sound := h.sound
  system := h.system
  mem hkind fs := by
    rw [h.mem hkind]
    exact and_congr_left fun ht => (hK fs ht).symm

theorem empty {d : Definition} {config : Config} (hd : d.system.Committed) (hts : d.system = ts)
    (hok : Index.empty d config = .ok ix) : Mirrors ts ∅ ix ∧ ix.definition = d := by
  obtain ⟨rfl, hheld⟩ := Index.held_empty hok
  exact ⟨⟨Index.sound_empty hd hok, hts, fun _ fs => by simp [hheld]⟩, rfl⟩

/-- What an index that is not a set holds is known by its ids. -/
theorem known (h : Mirrors ts H ix) (hS : Population ts S) (hH : ∀ fs ∈ H, fs ∈ S)
    (hkind : ix.kind ≠ .set) (hfs : fs ∈ S) :
    ∀ e ∈ ix.held, e.id.val = fs.id.val → e = fs := fun e he hid =>
  hS.known e (hH e ((h.mem hkind e).mp he).1) fs hfs hid

theorem insert (h : Mirrors ts H ix) (hS : Population ts S) (hH : ∀ fs ∈ H, fs ∈ S) (hfs : fs ∈ S)
    (ht : fs.type ∈ ix.types) : (∃ changed, (ix.insert fs).1 = .ok changed) ∧
      Mirrors ts (Insert.insert fs H) (ix.insert fs).2 := by
  have hbuilt : fs.builtFor ix.system = true := by rw [h.system]; exact hS.built fs hfs
  obtain ⟨leaf, hl⟩ := Index.exists_leaf h.sound.nodup ht
  obtain ⟨i, changed, m, -, hok, -, -⟩ := Index.insert_covered h.sound hbuilt hl
  have hdefinition : (ix.insert fs).2.definition = ix.definition :=
    Index.definition_apply ix (.insert fs)
  have htypes : (ix.insert fs).2.types = ix.types := Index.types_apply h.sound (.insert fs)
  refine ⟨⟨changed, by rw [hok]⟩, Index.sound_insert h.sound fs, ?_, fun hkind a => ?_⟩
  · rw [Index.system, hdefinition]
    exact h.system
  · rw [Index.kind, hdefinition] at hkind
    rw [(Index.mem_held_insert h.sound hkind hbuilt ht (h.known hS hH hkind hfs)).2, h.mem hkind,
      Finset.mem_insert, htypes]
    constructor
    · rintro (rfl | ⟨ha, hat⟩)
      · exact ⟨.inl rfl, ht⟩
      · exact ⟨.inr ha, hat⟩
    · rintro ⟨rfl | ha, hat⟩
      · exact .inl rfl
      · exact .inr ⟨ha, hat⟩

theorem erase (h : Mirrors ts H ix) (hS : Population ts S) (hH : ∀ fs ∈ H, fs ∈ S) (hfs : fs ∈ S) :
    Mirrors ts (H.erase fs) (ix.erase fs).2 := by
  have hdefinition : (ix.erase fs).2.definition = ix.definition :=
    Index.definition_apply ix (.erase fs)
  have htypes : (ix.erase fs).2.types = ix.types := Index.types_apply h.sound (.erase fs)
  refine ⟨Index.sound_erase h.sound fs, ?_, ?_⟩
  · rw [Index.system, hdefinition]
    exact h.system
  · intro hkind a
    rw [Index.kind, hdefinition] at hkind
    rw [(Index.mem_held_erase h.sound hkind (h.known hS hH hkind hfs)).2, h.mem hkind,
      Finset.mem_erase, htypes]
    tauto

theorem clear (h : Mirrors ts H ix) : Mirrors ts ∅ ix.clear where
  sound := Index.sound_clear h.sound
  system := h.system
  mem _ fs := by simp [Index.held_clear]

theorem mem_types (h : Mirrors ts H ix) {t : TypeCode} :
    t ∈ ix.types ↔ ts.subsumes ix.type t = true := by
  rw [h.sound.mem_types, h.system]

/-- An index that takes structures in turn mirrors them too. -/
theorem fill (h : Mirrors ts H ix) (hS : Population ts S) (hH : ∀ fs ∈ H, fs ∈ S)
    {l : List FeatureStructure} (hl : ∀ fs ∈ l, fs ∈ S ∧ fs.type ∈ ix.types) :
    ∃ ix', Repository.fill ix l = .ok ix' ∧ Mirrors ts (H ∪ l.toFinset) ix' ∧
      ix'.definition = ix.definition := by
  induction l generalizing ix H with
  | nil => exact ⟨ix, rfl, by simpa using h, rfl⟩
  | cons fs rest ih =>
      obtain ⟨⟨hfs, ht⟩, hrest⟩ := List.forall_mem_cons.mp hl
      obtain ⟨⟨changed, hok⟩, hins⟩ := h.insert hS hH hfs ht
      have htypes : (ix.insert fs).2.types = ix.types := Index.types_apply h.sound (.insert fs)
      obtain ⟨ix', hfill, hmirrors, hdefinition⟩ := ih hins
        (fun a ha => (Finset.mem_insert.mp ha).elim (fun h => h ▸ hfs) (hH a))
        fun a ha => by rw [htypes]; exact hrest a ha
      refine ⟨ix', fill_cons_eq_ok.mpr ⟨⟨changed, hok⟩, hfill⟩, ?_,
        hdefinition.trans (Index.definition_apply ix (.insert fs))⟩
      rw [List.toFinset_cons, Finset.union_insert, ← Finset.insert_union]
      exact hmirrors

end Mirrors

/-! ### Repositories that agree with a set -/

/-- A repository over a type system, whose bag of everything holds exactly `H`, and whose indexes
mirror it. -/
structure Agrees (ts : TypeSystem) (S : Set FeatureStructure) (H : Finset FeatureStructure)
    (r : Repository) : Prop where
  system : r.system = ts
  among : ∀ fs ∈ H, fs ∈ S
  everything : ∃ label, r.all.definition = .bag label ts .top
  all : Mirrors ts H r.all
  indexes : ∀ ix ∈ r.indexes, Mirrors ts H ix

namespace Agrees

variable {ts : TypeSystem} {S : Set FeatureStructure} {H : Finset FeatureStructure} {r : Repository}
  {fs : FeatureStructure}

theorem kind_all (h : Agrees ts S H r) : r.all.kind = .bag := by
  obtain ⟨label, hall⟩ := h.everything
  rw [Index.kind, hall]
  rfl

theorem kind_all_ne_set (h : Agrees ts S H r) : r.all.kind ≠ .set := by
  rw [h.kind_all]
  exact nofun

theorem everything_apply (h : Agrees ts S H r) (c : Index.Change) :
    ∃ label, (c.apply r.all).definition = .bag label ts .top := by
  rw [Index.definition_apply]
  exact h.everything

theorem committed (h : Agrees ts S H r) : ts.Committed := by
  rw [← h.all.system]
  exact h.all.sound.committed

/-- The bag of everything has a leaf for every type. -/
theorem mem_types (h : Agrees ts S H r) {t : TypeCode} : t ∈ r.all.types ↔ t.index < ts.size := by
  obtain ⟨label, hall⟩ := h.everything
  rw [h.all.mem_types, Index.type, hall]
  exact h.committed.subsumes_top

theorem mem_held (h : Agrees ts S H r) (hS : Population ts S) : fs ∈ r.all.held ↔ fs ∈ H := by
  rw [h.all.mem h.kind_all_ne_set]
  exact and_iff_left_of_imp fun hfs => h.mem_types.mpr (hS.typed fs (h.among fs hfs))

theorem known (h : Agrees ts S H r) (hS : Population ts S) (hfs : fs ∈ S) :
    ∀ e ∈ r.all.held, e.id.val = fs.id.val → e = fs :=
  h.all.known hS h.among h.kind_all_ne_set hfs

theorem contains_iff (h : Agrees ts S H r) (hS : Population ts S) (hfs : fs ∈ S) :
    r.contains fs = true ↔ fs ∈ H := by
  rw [contains, Index.contains_iff h.all.sound h.kind_all_ne_set (h.known hS hfs),
    h.mem_held hS]

theorem size_eq (h : Agrees ts S H r) (hS : Population ts S) : r.size = H.card := by
  have hheld : r.all.held.toFinset = H := by
    ext fs
    rw [List.mem_toFinset, h.mem_held hS]
  rw [size, h.all.sound.size_eq, ← List.toFinset_card_of_nodup h.all.sound.nodup_held, hheld]

theorem check_eq (h : Agrees ts S H r) (hS : Population ts S) (hfs : fs ∈ S) :
    r.check fs = .ok () := by
  have htyped := List.getElem?_eq_getElem (hS.typed fs hfs)
  rw [check, h.system, if_pos (hS.built fs hfs), TypeSystem.info, htyped]
  rfl

/-- Adding a structure to the covering indexes never fails. -/
theorem insertCovering_spec (hS : Population ts S) (hH : ∀ fs ∈ H, fs ∈ S) (hfs : fs ∈ S)
    {l : List Index} (hl : ∀ ix ∈ l, Mirrors ts H ix) :
    ∃ l', insertCovering fs l = (.ok (), l') ∧ ∀ ix ∈ l', Mirrors ts (Insert.insert fs H) ix := by
  induction l with
  | nil => exact ⟨[], rfl, nofun⟩
  | cons ix rest ih =>
      obtain ⟨hix, hrest⟩ := List.forall_mem_cons.mp hl
      obtain ⟨rest', hok, hmirrors⟩ := ih hrest
      by_cases ht : fs.type ∈ ix.types
      · obtain ⟨⟨changed, hinsert⟩, hins⟩ := hix.insert hS hH hfs ht
        refine ⟨(ix.insert fs).2 :: rest', ?_, List.forall_mem_cons.mpr ⟨hins, hmirrors⟩⟩
        rw [insertCovering, if_pos (Index.covers_iff.mpr ht), hok]
        split
        next heq => rw [heq]
        next heq => rw [heq] at hinsert; cases hinsert
      · -- an index that does not cover the type mirrors the greater set as it is
        refine ⟨ix :: rest', ?_, List.forall_mem_cons.mpr ⟨hix.congr fun a ha => ?_, hmirrors⟩⟩
        · rw [insertCovering, if_neg (mt Index.covers_iff.mp ht), hok]
        · rw [Finset.mem_insert]
          refine ⟨fun hor => hor.resolve_left ?_, .inr⟩
          rintro rfl
          exact ht ha

/-- **Adding** tells whether the structure is new, and keeps the agreement. -/
theorem insert (h : Agrees ts S H r) (hS : Population ts S) (hfs : fs ∈ S) :
    (r.insert fs).1 = .ok (decide (fs ∉ H)) ∧
      Agrees ts S (Insert.insert fs H) (r.insert fs).2 := by
  have ht : fs.type ∈ r.all.types := h.mem_types.mpr (hS.typed fs hfs)
  have hbuilt : fs.builtFor r.all.system = true := by rw [h.all.system]; exact hS.built fs hfs
  have hnew := (Index.mem_held_insert h.all.sound h.kind_all_ne_set hbuilt ht
    (h.known hS hfs)).1
  have hall := (h.all.insert hS h.among hfs ht).2
  have hamong : ∀ a ∈ Insert.insert fs H, a ∈ S := fun a ha =>
    (Finset.mem_insert.mp ha).elim (fun heq => heq ▸ hfs) (h.among a)
  have heverything : ∃ label, (r.all.insert fs).2.definition = .bag label ts .top :=
    h.everything_apply (.insert fs)
  simp only [h.mem_held hS] at hnew
  obtain ⟨l', hcovering, hindexes⟩ := insertCovering_spec hS h.among hfs h.indexes
  rw [Repository.insert, h.check_eq hS hfs]
  generalize r.all.insert fs = p at hnew hall heverything
  obtain ⟨outcome, all⟩ := p
  obtain rfl : outcome = .ok (decide (fs ∉ H)) := hnew
  -- the indexes are only told of a structure that is new to the bag of everything
  by_cases hin : fs ∈ H
  · simp only [hin, not_true_eq_false, decide_false]
    refine ⟨trivial, h.system, hamong, heverything, hall, ?_⟩
    intro ix hix
    rw [Finset.insert_eq_of_mem hin]
    exact h.indexes ix hix
  · simp only [hin, not_false_eq_true, decide_true, hcovering]
    exact ⟨trivial, h.system, hamong, heverything, hall, hindexes⟩

/-- A structure of another type system is refused. -/
theorem insert_foreign (h : Agrees ts S H r) (hfs : fs.builtFor ts = false) :
    r.insert fs = (.error (.foreignTypeSystem (.fs fs.id.val)), r) := by
  have hcheck : r.check fs = .error (.foreignTypeSystem (.fs fs.id.val)) := by
    rw [check, h.system, hfs]
    rfl
  rw [Repository.insert, hcheck]

/-- **Removing** tells whether the structure was there, and keeps the agreement. -/
theorem erase (h : Agrees ts S H r) (hS : Population ts S) (hfs : fs ∈ S) :
    (r.erase fs).1 = decide (fs ∈ H) ∧ Agrees ts S (H.erase fs) (r.erase fs).2 := by
  have hheld := (Index.mem_held_erase h.all.sound h.kind_all_ne_set
    (h.known hS hfs)).1
  have hall := h.all.erase hS h.among hfs
  have hamong : ∀ a ∈ H.erase fs, a ∈ S := fun a ha => h.among a (Finset.mem_of_mem_erase ha)
  have heverything : ∃ label, (r.all.erase fs).2.definition = .bag label ts .top :=
    h.everything_apply (.erase fs)
  simp only [h.mem_held hS] at hheld
  rw [Repository.erase]
  generalize r.all.erase fs = p at hheld hall heverything
  obtain ⟨removed, all⟩ := p
  obtain rfl : removed = decide (fs ∈ H) := hheld
  by_cases hin : fs ∈ H
  · simp only [hin, decide_true]
    refine ⟨trivial, h.system, hamong, heverything, hall, ?_⟩
    intro ix hix
    obtain ⟨ix', hix', rfl⟩ := List.mem_map.mp hix
    have herase := (h.indexes ix' hix').erase hS h.among hfs
    -- an index that does not cover the type has nothing to take out
    split
    · exact herase
    next hcovers =>
      rw [Index.erase_uncovered (mt Index.covers_iff.mpr hcovers)] at herase
      exact herase
  · simp only [hin, decide_false]
    refine ⟨trivial, h.system, hamong, heverything, hall, ?_⟩
    intro ix hix
    rw [Finset.erase_eq_of_notMem hin]
    exact h.indexes ix hix

theorem reset (h : Agrees ts S H r) : Agrees ts S ∅ r.reset where
  system := h.system
  among := nofun
  everything := h.everything
  all := h.all.clear
  indexes ix hix := by
    obtain ⟨ix', hix', rfl⟩ := List.mem_map.mp hix
    exact (h.indexes ix' hix').clear

/-! ### All structures of a type -/

theorem coherent (h : Agrees ts S H r) (hS : Population ts S) : r.all.Coherent :=
  h.all.sound.coherent fun a ha b hb hid =>
    hS.known a (h.among a ((h.mem_held hS).mp ha)) b (h.among b ((h.mem_held hS).mp hb)) hid

/-- **The structures of a type** are those of the set. -/
theorem structuresOf_spec (h : Agrees ts S H r) (hS : Population ts S) {t : TypeCode}
    (ht : t.index < ts.size) (withSubtypes : Bool) :
    ∃ l, r.structuresOf t withSubtypes = .ok l ∧
      ∀ fs, fs ∈ l ↔ fs ∈ H ∧ takes ts t withSubtypes fs.type = true := by
  have ht' := h.mem_types.mpr ht
  obtain ⟨it, hok, hs, hbound⟩ :=
    Index.exists_iterate h.all.sound (h.coherent hS) ht' withSubtypes
  refine ⟨_, by rw [structuresOf, hok]; rfl, ?_⟩
  intro fs
  rw [Iter.collect_eq hs, hbound,
    (Index.visits_listing h.all.sound (h.coherent hS) ht' withSubtypes).mem_iff, h.mem_held hS,
    h.all.system, takes]
  cases withSubtypes <;> simp

/-- A type that does not exist has no structures to look for. -/
theorem structuresOf_error (h : Agrees ts S H r) {t : TypeCode} (ht : ¬ t.index < ts.size)
    (withSubtypes : Bool) : r.structuresOf t withSubtypes = .error (r.all.notCovered t) := by
  rw [structuresOf, Index.iterate_uncovered (mt h.mem_types.mp ht)]
  rfl

theorem eraseAll (h : Agrees ts S H r) (hS : Population ts S) {l : List FeatureStructure}
    (hl : ∀ fs ∈ l, fs ∈ S) : Agrees ts S (H \ l.toFinset) (r.eraseAll l) := by
  induction l generalizing r H with
  | nil =>
      rw [List.toFinset_nil, Finset.sdiff_empty]
      exact h
  | cons fs rest ih =>
      obtain ⟨hfs, hrest⟩ := List.forall_mem_cons.mp hl
      have hall := ih (h.erase hS hfs).2 hrest
      rw [List.toFinset_cons, Finset.sdiff_insert, ← Finset.erase_sdiff_comm]
      exact hall

/-- Removing a type removes its structures in turn. There are none where there is no such type. -/
theorem eraseType_eq (h : Agrees ts S H r) (hS : Population ts S) (t : TypeCode)
    (withSubtypes : Bool) : ∃ l, Op.apply r (.eraseType t withSubtypes) = r.eraseAll l ∧
      ∀ fs, fs ∈ l ↔ fs ∈ H ∧ takes ts t withSubtypes fs.type = true := by
  rw [Op.apply, Repository.eraseType]
  by_cases ht : t.index < ts.size
  · obtain ⟨l, hok, hl⟩ := h.structuresOf_spec hS ht withSubtypes
    exact ⟨l, by rw [hok], hl⟩
  · refine ⟨[], by rw [h.structuresOf_error ht]; rfl, fun fs => ⟨nofun, fun ⟨hfs, htakes⟩ => ?_⟩⟩
    cases withSubtypes with
    | true => exact absurd (h.committed.index_lt htakes).1 ht
    | false =>
        obtain rfl : fs.type = t := beq_iff_eq.mp htakes
        exact absurd (hS.typed fs (h.among fs hfs)) ht

theorem sdiff_toFinset_eq_filter {l : List FeatureStructure} {t : TypeCode} {withSubtypes : Bool}
    (hl : ∀ fs, fs ∈ l ↔ fs ∈ H ∧ takes ts t withSubtypes fs.type = true) :
    H \ l.toFinset = H.filter fun fs => !takes ts t withSubtypes fs.type := by
  ext fs
  rw [Finset.mem_sdiff, List.mem_toFinset, hl, Finset.mem_filter, Bool.not_eq_true']
  apply and_congr_right
  intro hfs
  simp [hfs]

/-- **Removing a type** takes its structures out. -/
theorem eraseType (h : Agrees ts S H r) (hS : Population ts S) (t : TypeCode)
    (withSubtypes : Bool) :
    Agrees ts S (H.filter fun fs => !takes ts t withSubtypes fs.type)
      (Op.apply r (.eraseType t withSubtypes)) := by
  obtain ⟨l, hr, hl⟩ := h.eraseType_eq hS t withSubtypes
  rw [hr, ← sdiff_toFinset_eq_filter hl]
  exact h.eraseAll hS fun fs hfs => h.among fs ((hl fs).mp hfs).1

/-- A definition that is accepted is over the type system, and its index takes all structures of its
type. -/
theorem define_eq_ok (h : Agrees ts S H r) (hS : Population ts S) {d : Definition}
    (hd : d.system.uid = ts.uid → d.system = ts) {r' : Repository}
    (hok : r.define d = (.ok (), r')) :
    (∀ ix ∈ r.indexes, ix.label ≠ d.label) ∧ ∃ ix₀ l ix, Index.empty d r.config = .ok ix₀ ∧
      Mirrors ts ∅ ix₀ ∧ ix₀.definition = d ∧ fill ix₀ l = .ok ix ∧
      (∀ fs, fs ∈ l ↔ fs ∈ H ∧ ts.subsumes d.type fs.type = true) ∧
      (∀ fs ∈ l, fs ∈ S ∧ fs.type ∈ ix₀.types) ∧ r' = { r with indexes := r.indexes ++ [ix] } := by
  obtain ⟨hlabel, huid, ix₀, l, ix, hempty, hl, hfill, rfl⟩ := Repository.define_eq_ok hok
  rw [h.system] at huid
  have hsystem := hd huid
  obtain ⟨hmirrors, rfl⟩ := Mirrors.empty (hsystem ▸ h.committed) hsystem hempty
  have htyped := hmirrors.sound.typed
  rw [hmirrors.system] at htyped
  obtain ⟨l', hl', hmem⟩ := h.structuresOf_spec hS htyped true
  obtain rfl : l' = l := Except.ok.inj (hl'.symm.trans hl)
  refine ⟨hlabel, ix₀, l', ix, hempty, hmirrors, rfl, hfill, hmem, fun fs hfs => ?_, rfl⟩
  obtain ⟨hin, hbelow⟩ := (hmem fs).mp hfs
  exact ⟨h.among fs hin, hmirrors.mem_types.mpr hbelow⟩

/-- **Defining an index** fills it with what is held. -/
theorem define (h : Agrees ts S H r) (hS : Population ts S) {d : Definition}
    (hd : d.system.uid = ts.uid → d.system = ts) : Agrees ts S H (Op.apply r (.define d)) := by
  obtain ⟨jx, -, hok⟩ | ⟨e, -, herror⟩ := r.define_cases d
  · rw [Op.apply, hok]
    obtain ⟨-, ix₀, l, ix, -, hmirrors, rfl, hfill, hmem, htake, hr'⟩ := h.define_eq_ok hS hd hok
    obtain ⟨ix', hfill', hfilled, hdefinition⟩ := hmirrors.fill hS nofun htake
    obtain rfl : ix' = ix := Except.ok.inj (hfill'.symm.trans hfill)
    rw [hr']
    refine ⟨h.system, h.among, h.everything, h.all, ?_⟩
    intro jx hjx
    rcases List.mem_append.mp hjx with hjx | hjx
    · exact h.indexes jx hjx
    · obtain rfl := List.mem_singleton.mp hjx
      apply hfilled.congr
      intro fs hfs
      rw [hfilled.mem_types, Index.type, hdefinition] at hfs
      rw [Finset.empty_union, List.mem_toFinset, hmem]
      exact (and_iff_left hfs).symm
  · rw [Op.apply, herror]
    exact h

theorem apply (h : Agrees ts S H r) (hS : Population ts S) {op : Op} (hop : op.Over ts S) :
    Agrees ts S (op.keep ts H) (op.apply r) := by
  cases op with
  | define d => exact h.define hS hop
  | insert fs =>
      rw [Op.keep, Op.apply]
      split
      next hbuilt => exact (h.insert hS (hop hbuilt)).2
      next hforeign =>
        rw [h.insert_foreign (Bool.eq_false_iff.mpr hforeign)]
        exact h
  | erase fs => exact (h.erase hS hop).2
  | eraseType t withSubtypes => exact h.eraseType hS t withSubtypes
  | reset => exact h.reset

/-- **Whatever is done to it, a repository stays in agreement.** -/
theorem foldl_apply (h : Agrees ts S H r) (hS : Population ts S) {ops : List Op}
    (hops : ∀ op ∈ ops, op.Over ts S) :
    Agrees ts S (ops.foldl (Op.keep ts) H) (ops.foldl Op.apply r) := by
  induction ops generalizing r H with
  | nil => exact h
  | cons op rest ih =>
      obtain ⟨hop, hrest⟩ := List.forall_mem_cons.mp hops
      exact ih (h.apply hS hop) hrest

end Agrees

theorem agrees_empty {ts : TypeSystem} {config : Config} {r : Repository} (hts : ts.Committed)
    (hr : empty ts config = .ok r) (S : Set FeatureStructure) : Agrees ts S ∅ r := by
  obtain ⟨all, hall, hr⟩ := bind_eq_ok.mp hr
  cases hr
  obtain ⟨hmirrors, hdefinition⟩ := Mirrors.empty (d := .bag allLabel ts .top) hts rfl hall
  exact ⟨rfl, nofun, ⟨_, hdefinition⟩, hmirrors, nofun⟩

/-! ### What the leaves hold -/

/-- The structures of a type among those of a set, in the order of the leaves of an index. -/
noncomputable def share (d : Definition) (t : TypeCode) (H : Finset FeatureStructure) :
    List FeatureStructure :=
  union (Index.leafOrder d) ((H.filter fun fs => fs.type = t).toList.map fun fs => [fs])

theorem mem_share {d : Definition} {t : TypeCode} {H : Finset FeatureStructure}
    {fs : FeatureStructure} : fs ∈ share d t H ↔ fs ∈ H ∧ fs.type = t := by
  rw [share, mem_union]
  simp

theorem Population.ascending_share {ts : TypeSystem} {S : Set FeatureStructure}
    (hS : Population ts S) {d : Definition} (hkind : d.kind ≠ .set) (t : TypeCode)
    {H : Finset FeatureStructure} (hH : ∀ fs ∈ H, fs ∈ S) :
    Ascending (Index.leafOrder d) (share d t H) := by
  refine ascending_union (fun l hl => ?_) ?_
  · obtain ⟨fs, -, rfl⟩ := List.mem_map.mp hl
    exact List.pairwise_singleton ..
  · rw [Separate, List.pairwise_map]
    refine (Finset.nodup_toList _).imp_of_mem fun {a b} ha hb hab c hc e he heq => hab ?_
    rw [List.mem_singleton] at hc he
    subst hc he
    rw [Finset.mem_toList, Finset.mem_filter] at ha hb
    exact hS.known _ (hH _ ha.1) _ (hH _ hb.1) (Index.id_eq_of_leafOrder hkind heq)

theorem Mirrors.mem_snapshot {ts : TypeSystem} {H : Finset FeatureStructure} {ix : Index}
    (h : Mirrors ts H ix) (hkind : ix.kind ≠ .set) {t : TypeCode} (ht : t ∈ ix.types)
    {fs : FeatureStructure} : fs ∈ (ix.snapshot t).elements ↔ fs ∈ H ∧ fs.type = t := by
  rw [h.sound.mem_snapshot, h.mem hkind]
  constructor
  · rintro ⟨⟨hfs, -⟩, rfl⟩
    exact ⟨hfs, rfl⟩
  · rintro ⟨hfs, rfl⟩
    exact ⟨⟨hfs, ht⟩, rfl⟩

/-- **A repository agrees with the set of what was added to it** and not taken out since, whatever
is defined, added and removed in whatever order: it contains those structures and tells of each
operation whether it made a difference, and the leaves of its indexes hold exactly those of their
types, in order. So what a leaf holds depends on that set alone. -/
theorem run_agrees {ts : TypeSystem} {config : Config} {r₀ : Repository} (hts : ts.Committed)
    (hr : empty ts config = .ok r₀) {S : Set FeatureStructure} (hS : Population ts S)
    (ops : List Op) (hops : ∀ op ∈ ops, op.Over ts S) :
    let r := ops.foldl Op.apply r₀
    let H := ops.foldl (Op.keep ts) ∅
    (∀ fs ∈ S, (r.contains fs = true ↔ fs ∈ H) ∧ (r.insert fs).1 = .ok (decide (fs ∉ H)) ∧
      (r.erase fs).1 = decide (fs ∈ H)) ∧
    r.size = H.card ∧
    ∀ ix ∈ r.indexes, ix.kind ≠ .set → ∀ t, ix.covers t = true →
      (∀ fs, fs ∈ (ix.snapshot t).elements ↔ fs ∈ H ∧ fs.type = t) ∧
      Ascending (Index.leafOrder ix.definition) (ix.snapshot t).elements ∧
      (ix.snapshot t).elements = share ix.definition t H := by
  intro r H
  have h : Agrees ts S H r := (agrees_empty hts hr S).foldl_apply hS hops
  refine ⟨fun fs hfs => ⟨h.contains_iff hS hfs, (h.insert hS hfs).1, (h.erase hS hfs).1⟩,
    h.size_eq hS, fun ix hix hkind t ht => ?_⟩
  have hmirrors := h.indexes ix hix
  have hmem : ∀ fs, fs ∈ (ix.snapshot t).elements ↔ fs ∈ H ∧ fs.type = t := fun fs =>
    hmirrors.mem_snapshot hkind (Index.covers_iff.mp ht)
  have hasc := Index.ascending_snapshot hmirrors.sound t
  refine ⟨hmem, hasc, hasc.ext (hS.ascending_share hkind t h.among) fun fs => ?_⟩
  rw [hmem, mem_share]

open Index.Sample (definition mark word)

/-- Two marks and a word. -/
def sample : List FeatureStructure := [mark 0 5, word 1 4, mark 2 3]

theorem population_sample : Population Index.Sample.system {fs | fs ∈ sample} where
  built := show ∀ fs ∈ sample, _ by decide
  typed := show ∀ fs ∈ sample, _ by decide
  known := show ∀ a ∈ sample, ∀ b ∈ sample, _ by decide

/-- Marks and words that come and go while an index is defined, and a mark of another system. -/
def course : List Op :=
  [.insert (mark 0 5), .define definition, .insert (word 1 4), .erase (mark 0 5),
    .insert { mark 3 7 with system := 2 }, .eraseType ⟨2⟩ false, .insert (mark 2 3), .reset,
    .insert (word 1 4), .insert (mark 0 5)]

/-- The index that was defined in the course has the mark and the word in their leaves. -/
theorem run_agrees_sample : ∃ r₀, empty Index.Sample.system {} = .ok r₀ ∧
    let r := course.foldl Op.apply r₀
    let H := course.foldl (Op.keep Index.Sample.system) ∅
    r.size = H.card ∧ ∃ ix ∈ r.indexes, ix.definition = definition ∧
      (ix.snapshot ⟨1⟩).elements = share definition ⟨1⟩ H ∧
      (ix.snapshot ⟨2⟩).elements = share definition ⟨2⟩ H ∧
      (ix.snapshot ⟨1⟩).elements = [mark 0 5] ∧ (ix.snapshot ⟨2⟩).elements = [word 1 4] := by
  have hover : ∀ op ∈ course, op.Over Index.Sample.system {fs | fs ∈ sample} := by
    have hforeign : FeatureStructure.builtFor { mark 3 7 with system := 2 } Index.Sample.system =
        false := rfl
    simp [course, Op.Over, hforeign, sample, definition, Definition.system, Definition.sorted]
  obtain ⟨r₀, hr⟩ : ∃ r₀, empty Index.Sample.system {} = .ok r₀ := ⟨_, rfl⟩
  obtain ⟨-, hsize, hleaves⟩ :=
    run_agrees Index.Sample.committed_system hr population_sample course hover
  obtain ⟨ix, hix, hdefinition, hkind, hcovers, hheld⟩ :
      ∃ ix ∈ (course.foldl Op.apply r₀).indexes, ix.definition = definition ∧ ix.kind ≠ .set ∧
        (ix.covers ⟨1⟩ = true ∧ ix.covers ⟨2⟩ = true) ∧
        (ix.snapshot ⟨1⟩).elements = [mark 0 5] ∧ (ix.snapshot ⟨2⟩).elements = [word 1 4] := by
    cases hr
    exact ⟨_, List.mem_cons_self, rfl, by decide, by decide, by decide⟩
  refine ⟨r₀, hr, hsize, ix, hix, hdefinition, ?_, ?_, hheld⟩
  · rw [← hdefinition]
    exact (hleaves ix hix hkind ⟨1⟩ hcovers.1).2.2
  · rw [← hdefinition]
    exact (hleaves ix hix hkind ⟨2⟩ hcovers.2).2.2

end FeatureIndex.Repository
