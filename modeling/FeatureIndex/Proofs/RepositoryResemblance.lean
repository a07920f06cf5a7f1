import FeatureIndex.Proofs.Requests
import FeatureIndex.Proofs.Resemblance

/-!
# Repositories that resemble each other

Two repositories over one type system resemble each other when their bags of everything do, and so
do their indexes, in order; `δ` says for each leaf how many generations the two are apart. Every
request to them is answered alike and keeps the resemblance (`Resembles.answer`), also where an
insertion fails half-way. Iterators that they hand out are in step (`Resembles.iterate` and its
companions).
-/

namespace FeatureIndex.Repository

open Comparator (compareIds)

variable {r s r' s' : Repository} {δ : Address → UInt64}

/-- Indexes of one label that resemble each other as `δ` says. -/
def Paired (δ : Address → UInt64) (ix jx : Index) : Prop :=
  ix.Resembles (fun t => δ ⟨some jx.label, t⟩) jx

/-- The indexes and the bags of everything resemble each other. -/
structure Tally (δ : Address → UInt64) (r s : Repository) : Prop where
  all : r.all.Resembles (fun t => δ ⟨none, t⟩) s.all
  indexes : List.Forall₂ (Paired δ) r.indexes s.indexes

/-- Repositories over one type system that tally. Leaves that do not exist are not apart. -/
structure Resembles (δ : Address → UInt64) (r s : Repository) : Prop where
  system : r.system = s.system
  everything : s.all.kind = .bag
  tally : Tally δ r s
  unlabelled : ∀ label t, label ∉ s.labels → δ ⟨some label, t⟩ = 0

theorem labels_eq (r : Repository) : r.labels = r.definitions.map Definition.label := by
  rw [labels, definitions, List.map_map]
  rfl

theorem paired_apply {ix jx : Index} (h : Paired δ ix jx) (c : Index.Change) :
    Paired δ (c.apply ix) (c.apply jx) := by
  rw [Paired, Index.label, Index.definition_apply]
  exact h.apply c

theorem Paired.label {ix jx : Index} (h : Paired δ ix jx) : ix.label = jx.label :=
  congrArg Definition.label h.definition

theorem forall₂_paired_map {l m : List Index} (h : List.Forall₂ (Paired δ) l m)
    {f : Index → Index} (hf : ∀ ix jx, Paired δ ix jx → Paired δ (f ix) (f jx)) :
    List.Forall₂ (Paired δ) (l.map f) (m.map f) :=
  List.rel_map (fun ix jx hix => hf ix jx hix) h

theorem insertCovering_tally (fs : FeatureStructure) {l m : List Index}
    (h : List.Forall₂ (Paired δ) l m) :
    (insertCovering fs l).1 = (insertCovering fs m).1 ∧
      List.Forall₂ (Paired δ) (insertCovering fs l).2 (insertCovering fs m).2 := by
  induction h with
  | nil => exact ⟨rfl, .nil⟩
  | @cons ix jx rest rest' hix hrest ih =>
      have hnext := paired_apply hix (.insert fs)
      have houtcome := (hix.insert fs).1
      rw [Index.Change.apply, Index.Change.apply] at hnext
      rw [insertCovering, insertCovering, hix.covers]
      split
      · generalize ix.insert fs = p, jx.insert fs = q at hnext houtcome
        obtain ⟨outcome, ix'⟩ := p
        obtain ⟨outcome', jx'⟩ := q
        obtain rfl : outcome = outcome' := houtcome
        cases outcome with
        | ok b => exact ⟨ih.1, .cons hnext ih.2⟩
        | error e => exact ⟨rfl, .cons hnext hrest⟩
      · exact ⟨ih.1, .cons hix ih.2⟩

namespace Resembles

theorem refl (h : r.Sound) : r.Resembles (fun _ => 0) r where
  system := rfl
  everything := by rw [Index.kind, h.everything]; rfl
  tally := ⟨.refl h.all, List.forall₂_same.mpr fun ix hix => .refl (h.indexes ix hix).1⟩
  unlabelled _ _ _ := rfl

/-- What evolves from repositories that resemble each other does so, as long as it tallies. -/
theorem next (h : r.Resembles δ s) (hr : r.Evolves r') (hs : s.Evolves s') (ht : Tally δ r' s') :
    r'.Resembles δ s' where
  system := by rw [hr.system, hs.system, h.system]
  everything := by
    rw [Index.kind, hs.all.definition]
    exact h.everything
  tally := ht
  unlabelled label t hlabel := by
    rw [labels_eq, hs.definitions, ← labels_eq] at hlabel
    exact h.unlabelled label t hlabel

theorem check (h : r.Resembles δ s) (fs : FeatureStructure) : r.check fs = s.check fs := by
  rw [Repository.check, Repository.check, h.system]

/-- **Insertions are answered alike**, and leave the same behind where they fail. -/
theorem insert (h : r.Resembles δ s) (fs : FeatureStructure) :
    (r.insert fs).1 = (s.insert fs).1 ∧ (r.insert fs).2.Resembles δ (s.insert fs).2 := by
  have htally : (r.insert fs).1 = (s.insert fs).1 ∧
      Tally δ (r.insert fs).2 (s.insert fs).2 := by
    obtain ⟨houtcome, hall⟩ := h.tally.all.insert fs
    obtain ⟨hcovering, hindexes⟩ := insertCovering_tally fs h.tally.indexes
    rw [Repository.insert, Repository.insert, h.check]
    split
    · exact ⟨rfl, h.tally⟩
    · generalize r.all.insert fs = p, s.all.insert fs = q at houtcome hall
      obtain ⟨outcome, all⟩ := p
      obtain ⟨outcome', all'⟩ := q
      obtain rfl : outcome = outcome' := houtcome
      rcases outcome with e | _ | _
      · exact ⟨rfl, hall, h.tally.indexes⟩
      · exact ⟨rfl, hall, h.tally.indexes⟩
      · generalize insertCovering fs r.indexes = p, insertCovering fs s.indexes = q
          at hcovering hindexes
        obtain ⟨covered, indexes⟩ := p
        obtain ⟨covered', indexes'⟩ := q
        obtain rfl : covered = covered' := hcovering
        cases covered with
        | ok u => exact ⟨rfl, hall, hindexes⟩
        | error e =>
            -- both take out again what went in
            exact ⟨rfl, (hall.erase fs).2,
              forall₂_paired_map hindexes fun _ _ hix => paired_apply hix (.erase fs)⟩
  exact ⟨htally.1, h.next (evolves_insert r fs) (evolves_insert s fs) htally.2⟩

/-- **Removals are answered alike.** -/
theorem erase (h : r.Resembles δ s) (fs : FeatureStructure) :
    (r.erase fs).1 = (s.erase fs).1 ∧ (r.erase fs).2.Resembles δ (s.erase fs).2 := by
  have htally : (r.erase fs).1 = (s.erase fs).1 ∧ Tally δ (r.erase fs).2 (s.erase fs).2 := by
    obtain ⟨hremoved, hall⟩ := h.tally.all.erase fs
    rw [Repository.erase, Repository.erase]
    generalize r.all.erase fs = p, s.all.erase fs = q at hremoved hall
    obtain ⟨removed, all⟩ := p
    obtain ⟨removed', all'⟩ := q
    obtain rfl : removed = removed' := hremoved
    cases removed with
    | false => exact ⟨rfl, hall, h.tally.indexes⟩
    | true =>
        refine ⟨rfl, hall, forall₂_paired_map h.tally.indexes fun ix jx hix => ?_⟩
        rw [hix.covers]
        split
        · exact paired_apply hix (.erase fs)
        · exact hix
  exact ⟨htally.1, h.next (evolves_erase r fs) (evolves_erase s fs) htally.2⟩

theorem eraseAll (h : r.Resembles δ s) (l : List FeatureStructure) :
    (r.eraseAll l).Resembles δ (s.eraseAll l) := by
  induction l generalizing r s with
  | nil => exact h
  | cons fs rest ih => exact ih (h.erase fs).2

theorem reset (h : r.Resembles δ s) : r.reset.Resembles δ s.reset :=
  h.next (evolves_reset r) (evolves_reset s)
    ⟨h.tally.all.clear, forall₂_paired_map h.tally.indexes fun _ _ hix => paired_apply hix .clear⟩

theorem changeIndex (h : r.Resembles δ s) (label : String) (c : Index.Change) :
    (r.changeIndex label c).Resembles δ (s.changeIndex label c) := by
  refine h.next (evolves_changeIndex r label c) (evolves_changeIndex s label c)
    ⟨h.tally.all, forall₂_paired_map h.tally.indexes fun ix jx hix => ?_⟩
  rw [hix.label]
  split
  · exact paired_apply hix c
  · exact hix

theorem labels (h : r.Resembles δ s) : r.labels = s.labels := by
  rw [Repository.labels, Repository.labels, ← List.forall₂_eq_eq_eq]
  exact List.rel_map (fun _ _ hix => hix.label) h.tally.indexes

end Resembles

/-! ### Looking up -/

/-- The order in which cursors over a leaf look for places. -/
def orderAt (ds : List Definition) (a : Address) : FeatureStructure → FeatureStructure → Ordering :=
  match a.label with
  | none => compareIds
  | some label =>
    match ds.find? fun d => d.label == label with
    | some d => Index.walkOrder d
    | none => compareIds

/-- The leaves of one address go together. -/
def pairing (ds : List Definition) (δ : Address → UInt64) : Pairing Address Address :=
  fun cmp g a b => a = b ∧ g = δ b ∧ cmp = orderAt ds b

theorem index_eq_ok {label : String} {ix : Index} (hok : r.index label = .ok ix) :
    ix.label = label ∧
      ∀ t, orderAt r.definitions ⟨some label, t⟩ = Index.walkOrder ix.definition := by
  have hd : r.definitions.find? (fun d => d.label == label) = some ix.definition := by
    rw [definitions, List.find?_map]
    exact congrArg (Option.map Index.definition) (index_eq_ok_iff.mp hok)
  exact ⟨(mem_of_index hok).2, fun t => by simp only [orderAt, hd]⟩

theorem index_eq_error {label : String} {e : Error} (herror : r.index label = .error e) :
    label ∉ r.labels := by
  rw [index] at herror
  split at herror
  · cases herror
  next hfind =>
    intro hlabel
    obtain ⟨ix, hix, rfl⟩ := List.mem_map.mp hlabel
    exact List.find?_eq_none.mp hfind ix hix (beq_self_eq_true _)

namespace Resembles

/-- Looking a label up finds indexes that resemble each other, or fails. -/
theorem index (h : r.Resembles δ s) (label : String) :
    OutcomeRel (fun ix jx => ix.Resembles (fun t => δ ⟨some label, t⟩) jx ∧
      ∀ t, orderAt s.definitions ⟨some label, t⟩ = Index.walkOrder jx.definition)
      (r.index label) (s.index label) := by
  have hfound := rel_find? h.tally.indexes (p := fun ix => ix.label == label)
    (q := fun ix => ix.label == label) fun _ _ hix => by rw [hix.label]
  cases hs : s.index label with
  | error e =>
      rw [Repository.index] at hs ⊢
      generalize r.indexes.find? _ = x, s.indexes.find? _ = y at hfound hs
      cases hfound with
      | none =>
          cases hs
          exact .error _
      | some => cases hs
  | ok jx =>
      obtain ⟨hlabel, horder⟩ := index_eq_ok hs
      rw [Repository.index] at hs ⊢
      generalize r.indexes.find? _ = x, s.indexes.find? _ = y at hfound hs
      cases hfound with
      | none => cases hs
      | some hix =>
          cases hs
          rw [Paired, hlabel] at hix
          exact .ok ⟨hix, horder⟩

theorem walkOrder_all (h : r.Resembles δ s) : Index.walkOrder s.all.definition = compareIds := by
  have hkind : s.all.definition.kind = .bag := h.everything
  simp only [Index.walkOrder, hkind]

/-- **Every leaf holds the same**, as many generations apart as `δ` says. -/
theorem snapshot (h : r.Resembles δ s) (a : Address) :
    (r.snapshot a).Resembles (orderAt s.definitions a) (δ a) (s.snapshot a) := by
  obtain ⟨label, t⟩ := a
  cases label with
  | none =>
      have hall := h.tally.all.snapshot t
      rw [h.walkOrder_all] at hall
      exact hall
  | some label =>
      have hindex := h.index label
      have hnone : ∀ e, s.index label = .error e → δ ⟨some label, t⟩ = 0 := fun e he =>
        h.unlabelled label t (index_eq_error he)
      simp only [Repository.snapshot]
      generalize r.index label = x, s.index label = y at hindex hnone
      cases hindex with
      | error e =>
          rw [hnone e rfl]
          exact .refl List.Pairwise.nil
      | ok hix =>
          rw [hix.2 t]
          exact hix.1.snapshot t

theorem live (h : r.Resembles δ s) : (pairing s.definitions δ).Live r.snapshot s.snapshot := by
  rintro _ _ a _ ⟨rfl, rfl, rfl⟩
  exact h.snapshot a

/-- Iterators over the leaves of an index are iterators over those leaves in the repository. -/
theorem inStep_label {ds : List Definition} {jx : Index} {label : Option String}
    (horder : ∀ t, orderAt ds ⟨label, t⟩ = Index.walkOrder jx.definition) {it it' : Iter TypeCode}
    (hit : it.InStep (Index.pairing jx.definition fun t => δ ⟨label, t⟩) it') :
    (it.map (Address.mk label)).InStep (pairing ds δ) (it'.map (Address.mk label)) := by
  apply hit.map
  rintro _ _ u _ ⟨rfl, rfl, rfl⟩
  exact ⟨rfl, rfl, (horder u).symm⟩

/-- **Repositories that resemble each other hand out iterators in step.** -/
theorem iterate (h : r.Resembles δ s) (label : String) (t : TypeCode) (withSubtypes : Bool) :
    OutcomeRel (Iter.InStep (pairing s.definitions δ)) (r.iterate label t withSubtypes)
      (s.iterate label t withSubtypes) := by
  refine (h.index label).bind fun ix jx hix => (hix.1.iterate t withSubtypes).bind ?_
  intro it it' hit
  exact .ok (inStep_label hix.2 hit)

theorem iterateOwn (h : r.Resembles δ s) (label : String) (withSubtypes : Bool) :
    OutcomeRel (Iter.InStep (pairing s.definitions δ)) (r.iterateOwn label withSubtypes)
      (s.iterateOwn label withSubtypes) := by
  refine (h.index label).bind fun ix jx hix => ?_
  have htype : ix.type = jx.type := congrArg Definition.type hix.1.definition
  rw [Index.iterateOwn, Index.iterateOwn, htype]
  refine (hix.1.iterate jx.type withSubtypes).bind ?_
  intro it it' hit
  exact .ok (inStep_label hix.2 hit)

theorem iterateAll (h : r.Resembles δ s) (t : TypeCode) (withSubtypes : Bool) :
    OutcomeRel (Iter.InStep (pairing s.definitions δ)) (r.iterateAll t withSubtypes)
      (s.iterateAll t withSubtypes) := by
  refine (h.tally.all.iterate t withSubtypes).bind ?_
  intro it it' hit
  have horder : ∀ t, orderAt s.definitions ⟨none, t⟩ = Index.walkOrder s.all.definition :=
    fun _ => h.walkOrder_all.symm
  exact .ok (inStep_label horder hit)

theorem structuresOf (h : r.Resembles δ s) (t : TypeCode) (withSubtypes : Bool) :
    r.structuresOf t withSubtypes = s.structuresOf t withSubtypes := by
  apply (h.tally.all.iterate t withSubtypes).bind_eq
  intro it it' hit
  exact congrArg Except.ok (hit.collect h.tally.all.live).1

/-! ### Requests -/

/-- **Whatever two such repositories are asked, they answer alike and go on to resemble each
other.** -/
theorem answer (h : r.Resembles δ s) (q : Request) :
    (r.answer q).1 = (s.answer q).1 ∧ (r.answer q).2.Resembles δ (s.answer q).2 := by
  cases q with
  | insert fs =>
      obtain ⟨houtcome, hnext⟩ := h.insert fs
      exact ⟨congrArg Answer.ofFlag houtcome, hnext⟩
  | erase fs =>
      obtain ⟨hremoved, hnext⟩ := h.erase fs
      exact ⟨congrArg Answer.flag hremoved, hnext⟩
  | eraseType t withSubtypes =>
      rw [Repository.answer, Repository.answer, eraseType, eraseType, h.structuresOf]
      cases s.structuresOf t withSubtypes with
      | error e => exact ⟨rfl, h⟩
      | ok l => exact ⟨rfl, h.eraseAll l⟩
  | reset => exact ⟨rfl, h.reset⟩
  | contains fs => exact ⟨congrArg Answer.flag (h.tally.all.contains fs), h⟩
  | size => exact ⟨congrArg Answer.count h.tally.all.size, h⟩
  | labels => exact ⟨congrArg Answer.names h.labels, h⟩
  | change label c =>
      have hindex := h.index label
      rw [Repository.answer, Repository.answer]
      generalize r.index label = x, s.index label = y at hindex
      cases hindex with
      | error e => exact ⟨rfl, h⟩
      | ok hix =>
          refine ⟨?_, h.changeIndex label c⟩
          cases c with
          | insert fs => exact congrArg Answer.ofFlag (hix.1.insert fs).1
          | erase fs => exact congrArg Answer.flag (hix.1.erase fs).1
          | clear => rfl
  | indexContains label fs =>
      exact ⟨congrArg Answer.ofFlag ((h.index label).map_eq fun _ _ hix => hix.1.contains fs), h⟩
  | indexSize label =>
      exact ⟨congrArg Answer.ofCount ((h.index label).map_eq fun _ _ hix => hix.1.size), h⟩
  | indexSizeOf label t withSubtypes =>
      refine ⟨congrArg Answer.ofCount ?_, h⟩
      exact (h.index label).bind_eq fun _ _ hix => hix.1.sizeOf t withSubtypes

end Resembles
end FeatureIndex.Repository
