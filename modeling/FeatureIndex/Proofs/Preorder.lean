import FeatureIndex.Proofs.TypeSystem
import Mathlib.Data.List.Flatten

/-!
# The order of a type system's types

A type system lists its types so that every type comes before what is below it, and everything below
an earlier sibling before everything below a later one. `SubtypeList` says this of the list of the
subtypes of a type.

`TypeSystem.Reflects` is all that a type system tells about the tree of some declarations: its
listing, subsumption, the lists of subtypes, the types right below a type, and what becomes of codes
from elsewhere. A commit makes a type system that reflects the declarations (`commit_reflects`).
-/

namespace FeatureIndex

/-- The types that `t` subsumes, each once: first the type itself, every type before those right
below it, and of two siblings all below the earlier one before all below the later one. -/
structure TypeSystem.SubtypeList (ts : TypeSystem) (t : TypeCode) (l : List TypeCode) : Prop where
  head : l.head? = some t
  nodup : l.Nodup
  mem : ∀ u, u ∈ l ↔ ts.subsumes t u = true
  parents : ∀ p ∈ l, ∀ c, ts.supertype? c = some p → [p, c].Sublist l
  siblings : ∀ b ∈ l, ∀ c ∈ l, ∀ p, ts.supertype? b = some p → ts.supertype? c = some p →
    b.index < c.index → ∀ u v, ts.subsumes b u = true → ts.subsumes c v = true → [u, v].Sublist l

/-- A type system that answers by the tree of the declarations. -/
structure TypeSystem.Reflects (ts : TypeSystem) (d : Declarations) : Prop where
  supertype : ts.supertype? = d.supertype?
  listed : ts.preorder.Nodup ∧ ∀ t, t ∈ ts.preorder ↔ t.index < d.types.length
  subsumes : ∀ sup sub, sup.index < d.types.length → sub.index < d.types.length →
    (ts.subsumes sup sub = true ↔ Above ts.supertype? sup sub)
  subtypes : ∀ t, t.index < d.types.length → ∃ l, ts.subtypes t = .ok l ∧ ts.SubtypeList t l
  direct : ∀ t, t.index < d.types.length → ∃ info, ts.info t = .ok info ∧
    (∀ c, c ∈ info.directSubtypes ↔ ts.supertype? c = some t) ∧
    info.directSubtypes.Pairwise fun b c => b.index < c.index
  foreign : ∀ t, d.types.length ≤ t.index →
    ts.subtypes t = .error (.invalidTypeCode t.code) ∧
      ∀ u, ts.subsumes t u = false ∧ ts.subsumes u t = false

namespace Declarations

variable {d : Declarations} {ts : TypeSystem} {t u v p b c : TypeCode} {uid : Nat}

/-! ### Siblings -/

/-- Siblings stand in the order of their declaration. -/
theorem childrenOf_ascending (d : Declarations) (t : TypeCode) :
    (d.childrenOf t).Pairwise fun b c => b.index < c.index := by
  have hsnd : ((d.types.zipIdx.filter fun p => p.1.supertype == some t).map Prod.snd).Pairwise
      (· < ·) := by
    refine List.Pairwise.sublist (List.filter_sublist.map Prod.snd) ?_
    rw [List.zipIdx_map_snd]
    exact List.pairwise_lt_range'
  exact List.pairwise_map.mpr (List.pairwise_map.mp hsnd)

theorem pair_sublist {l : List TypeCode} (hl : l.Pairwise fun b c => b.index < c.index)
    (hb : b ∈ l) (hc : c ∈ l) (hbc : b.index < c.index) : [b, c].Sublist l := by
  obtain ⟨before, after, rfl⟩ := List.append_of_mem hb
  obtain ⟨-, hafter, hbefore⟩ := List.pairwise_append.mp hl
  have hin : c ∈ after := by
    rcases List.mem_append.mp hc with hc | hc
    · have := hbefore c hc b List.mem_cons_self
      omega
    · refine (List.mem_cons.mp hc).resolve_left ?_
      rintro rfl
      exact absurd hbc (Nat.lt_irrefl _)
  exact List.sublist_append_of_sublist_right
    (List.Sublist.cons_cons b (List.singleton_sublist.mpr hin))

/-! ### The order of a list of subtypes -/

namespace Rooted

theorem index_lt_of_above (h : d.Rooted) (ht : t.index < d.types.length)
    (htu : Above d.supertype? t u) : u.index < d.types.length := by
  cases htu with
  | refl => exact ht
  | climb hp => exact (h.index_lt hp).2

/-- Whatever is below a type comes after it. -/
theorem parent_sublist (h : d.Rooted) (hp : Above d.supertype? t p)
    (hc : d.supertype? c = some p) : [p, c].Sublist (d.below t) := by
  have hlt := h.index_lt hc
  have hplt : p.index < d.types.length := by omega
  refine List.Sublist.trans ?_ (h.below_infix hp hplt).sublist
  rw [h.below_eq hplt]
  apply List.Sublist.cons_cons
  rw [List.singleton_sublist, List.mem_flatMap]
  exact ⟨c, mem_childrenOf.mpr hc, h.mem_below_self c⟩

/-- Whatever is below an earlier sibling comes before whatever is below a later one. -/
theorem siblings_sublist (h : d.Rooted) (ht : t.index < d.types.length)
    (hp : Above d.supertype? t p) (hb : d.supertype? b = some p) (hc : d.supertype? c = some p)
    (hbc : b.index < c.index) (hu : u ∈ d.below b) (hv : v ∈ d.below c) :
    [u, v].Sublist (d.below t) := by
  have hplt := h.index_lt_of_above ht hp
  refine List.Sublist.trans ?_ (h.below_infix hp hplt).sublist
  rw [h.below_eq hplt]
  apply List.Sublist.cons
  -- the two siblings are two of the children, and their lists two of the blocks
  have hpair := pair_sublist (d.childrenOf_ascending p) (mem_childrenOf.mpr hb)
    (mem_childrenOf.mpr hc) hbc
  refine List.Sublist.trans ?_ (hpair.flatMap d.below)
  rw [List.flatMap_cons, List.flatMap_cons, List.flatMap_nil, List.append_nil]
  exact List.Sublist.append (List.singleton_sublist.mpr hu) (List.singleton_sublist.mpr hv)

/-- Two siblings below a type have their parent below it too. -/
theorem above_of_siblings (h : d.Rooted) (hc : d.supertype? c = some p) (hbc : b.index < c.index)
    (htb : Above d.supertype? t b) (htc : Above d.supertype? t c) : Above d.supertype? t p := by
  cases htc with
  | refl =>
      -- the later sibling would stand above the earlier one
      have := h.index_le htb
      omega
  | climb hp htp =>
      rw [hc] at hp
      cases hp
      exact htp

end Rooted

/-! ### What a commit makes -/

theorem commit_subtypeList (hd : d.Reachable) (hok : d.commit uid = .ok ts)
    (ht : t.index < d.types.length) : ts.SubtypeList t (ts.subtree t) := by
  have hr := hd.rooted
  have hl := commit_laid hr hok
  have hts : ts.Committed := ⟨d, uid, hd, hok⟩
  have hbelow : ∀ {b}, b.index < d.types.length → ts.subtree b = d.below b :=
    fun hb => hl.subtree_eq hr (hl.size ▸ hb)
  -- below a type is what it subsumes
  have hmem : ∀ {b}, b.index < d.types.length → ∀ u, u ∈ d.below b ↔ ts.subsumes b u = true :=
    fun hb u => by rw [← hbelow hb, hts.mem_subtree]
  rw [hbelow ht]
  refine ⟨?_, hr.nodup_below ht, hmem ht, ?_, ?_⟩
  · rw [hr.below_eq ht]
    rfl
  · intro p hp c hc
    rw [hl.supertype] at hc
    exact hr.parent_sublist ((hr.mem_below ht).mp hp) hc
  · intro b hb c hc p hbp hcp hbc u v hu hv
    rw [hl.supertype] at hbp hcp
    rw [hr.mem_below ht] at hb hc
    refine hr.siblings_sublist ht (hr.above_of_siblings hcp hbc hb hc) hbp hcp hbc ?_ ?_
    · exact (hmem (hr.index_lt hbp).2 u).mpr hu
    · exact (hmem (hr.index_lt hcp).2 v).mpr hv

/-- **A commit reflects the tree of the declarations**: subsumption by places in the pre-order is
the ancestor relation, and the types are listed in the order of the tree. -/
theorem commit_reflects (hd : d.Reachable) (hok : d.commit uid = .ok ts) : ts.Reflects d := by
  have hr := hd.rooted
  have hl := commit_laid hr hok
  have hts : ts.Committed := ⟨d, uid, hd, hok⟩
  refine ⟨hl.supertype, ⟨?_, ?_⟩, ?_, ?_, ?_, ?_⟩
  · rw [hl.preorder]
    exact hr.nodup_below (t := .top) hr.nonempty
  · intro t
    rw [hl.preorder]
    exact hr.mem_below_top
  · intro sup sub hsup hsub
    exact hts.subsumes_iff (hl.size ▸ hsup) (hl.size ▸ hsub)
  · intro t ht
    exact ⟨ts.subtree t, hts.subtypes_eq (hl.size ▸ ht), commit_subtypeList hd hok ht⟩
  · intro t ht
    obtain ⟨info, hinfo, hdirect⟩ := hl.children t ht
    refine ⟨info, hinfo, ?_, ?_⟩
    · intro c
      rw [hdirect, hl.supertype]
      exact mem_childrenOf
    · rw [hdirect]
      exact d.childrenOf_ascending t
  · intro t ht
    have hforeign : ¬ t.index < ts.size := by
      rw [hl.size]
      omega
    refine ⟨?_, fun u => ⟨?_, ?_⟩⟩
    · rw [TypeSystem.subtypes, hl.spans, List.getElem?_map, d.codes_getElem?, if_neg (by omega)]
      rfl
    · exact Bool.eq_false_iff.mpr fun htu => hforeign (hts.index_lt htu).1
    · exact Bool.eq_false_iff.mpr fun hut => hforeign (hts.index_lt hut).2

/-- Two types below the root, the first of which has one below it that was declared last. -/
theorem commit_reflects_fork :
    ∃ (d : Declarations) (ts : TypeSystem), d.Reachable ∧ d.commit 1 = .ok ts ∧
      ts.preorder.map ts.name = ["TOP", "A", "C", "B"] ∧ ts.Reflects d := by
  have ha := Reachable.root.addType (show Declarations.root.addType "A" ⟨0⟩ = .ok _ from rfl)
  have hb := ha.addType (show Declarations.addType _ "B" ⟨0⟩ = .ok _ from rfl)
  have hc := hb.addType (show Declarations.addType _ "C" ⟨1⟩ = .ok _ from rfl)
  exact ⟨_, _, hc, rfl, rfl, commit_reflects hc rfl⟩

end Declarations
end FeatureIndex
