import FeatureIndex.Proofs.Order
import FeatureIndex.Proofs.Preorder
import Mathlib.Data.Set.Function
import Mathlib.Order.Interval.Set.Defs

/-!
# The linear order of types

The ranks of a committed type system are the numbers below its size, each for one type. `Linear`
says which type has which: those with priority have the smallest, in the order of their list, and
the others follow in the pre-order of the hierarchy. So a comparator that orders by types keeps the
structures of two types apart, whatever other keys it has. A commit ranks its types so
(`commit_linear`).
-/

namespace FeatureIndex

/-- The types in a line, as the declarations want them: those with priority, then the others in
pre-order. Whatever orders by types tells the structures of two types apart. -/
structure TypeSystem.Linear (ts : TypeSystem) (d : Declarations) : Prop where
  bijective : Set.BijOn ts.priority {t | t.index < ts.size} (Set.Iio ts.size)
  listed : ∀ (i : Nat) (t : TypeCode), d.priorities[i]? = some t → ts.priority t = i
  others : ∀ (i : Nat) (t : TypeCode), (ts.preorder.filter (· ∉ d.priorities))[i]? = some t →
    ts.priority t = d.priorities.length + i
  apart : ∀ a b : FeatureStructure, a.type.index < ts.size → b.type.index < ts.size →
    a.type ≠ b.type → Key.typePriority.compare ts a b ≠ .eq
  ordered : ∀ c : Comparator, c.system = ts → .typePriority ∈ c.keys →
    ∀ a b : FeatureStructure, a.type.index < ts.size → b.type.index < ts.size →
      a.type ≠ b.type → c.compare a b ≠ .eq

namespace Declarations

variable {d : Declarations} {ts : TypeSystem} {uid : Nat}

/-- A commit gives every type a place in the linear order. -/
theorem Rooted.ranking_perm (hr : d.Rooted) (hok : d.commit uid = .ok ts) :
    d.ranking.Perm d.codes := by
  obtain ⟨_, _, hranked⟩ := bind_eq_ok.mp hok
  obtain ⟨ranks, hranks, -⟩ := bind_eq_ok.mp hranked
  exact (hr.ranks_eq_ok hranks).2

/-- **Priority is a linear order on the types**: a bijection onto the ranks, that starts with the
types that were given priority and goes on in pre-order. -/
theorem commit_linear (hd : d.Reachable) (hok : d.commit uid = .ok ts) : ts.Linear d := by
  have hr := hd.rooted
  have hl := commit_laid hr hok
  have hts : ts.Committed := ⟨d, uid, hd, hok⟩
  have hperm := hr.ranking_perm hok
  have hnodup : d.ranking.Nodup := hperm.nodup_iff.mpr d.nodup_codes
  have hlength : d.ranking.length = ts.size := by
    rw [hperm.length_eq, codes, List.length_map, List.length_range, hl.size]
  have hrank : ∀ {i t}, d.ranking[i]? = some t → t.index < ts.size ∧ ts.priority t = i := by
    intro i t ht
    have hin : t.index < ts.size := by
      rw [hl.size, ← mem_codes]
      exact hperm.subset (List.mem_of_getElem? ht)
    obtain ⟨hi, rfl⟩ := List.getElem?_eq_some_iff.mp ht
    exact ⟨hin, by rw [hl.priority hin, hnodup.idxOf_getElem]⟩
  have hapart : ∀ a b : FeatureStructure, a.type.index < ts.size → b.type.index < ts.size →
      a.type ≠ b.type → Key.typePriority.compare ts a b ≠ .eq := by
    intro a b ha hb hne heq
    exact hne (hts.priority_inj ha hb (Key.compare_eq_eq.mp heq))
  refine ⟨⟨?_, fun t ht u hu => hts.priority_inj ht hu, ?_⟩, ?_, ?_, hapart, ?_⟩
  · intro t ht
    rw [hl.priority ht, Set.mem_Iio, ← hlength]
    exact List.idxOf_lt_length_iff.mpr (hr.mem_ranking (hl.size ▸ ht))
  · intro i hi
    rw [Set.mem_Iio, ← hlength] at hi
    exact ⟨d.ranking[i], hrank (List.getElem?_eq_getElem hi)⟩
  · intro i t ht
    have hi := (List.getElem?_eq_some_iff.mp ht).1
    have hlisted : d.ranking[i]? = some t := by
      rw [ranking, List.getElem?_append_left hi, ht]
    exact (hrank hlisted).2
  · intro i t ht
    refine (hrank ?_).2
    rw [ranking, List.getElem?_append_right (Nat.le_add_right _ _), Nat.add_sub_cancel_left,
      hr.preorder_eq, ← hl.preorder, ← ht]
    simp
  · rintro c rfl hkey a b ha hb hne heq
    exact hapart a b ha hb hne (Comparator.compareKeys_eq_eq.mp heq _ hkey)

/-- Five types, three of which are given priority: one below another one that is not, and a type
after what is below it. -/
theorem commit_linear_mixed :
    ∃ (d : Declarations) (ts : TypeSystem), d.Reachable ∧ d.commit 1 = .ok ts ∧
      d.priorities = [⟨3⟩, ⟨4⟩, ⟨2⟩] ∧ ts.preorder.map ts.name = ["TOP", "A", "C", "B", "D"] ∧
      ["TOP", "A", "B", "C", "D"].map (fun name => (ts.typeByName name).toOption.map ts.priority) =
        [some 3, some 4, some 2, some 0, some 1] ∧ ts.Linear d := by
  have ha := Reachable.root.addType (show Declarations.root.addType "A" ⟨0⟩ = .ok _ from rfl)
  have hb := ha.addType (show Declarations.addType _ "B" ⟨0⟩ = .ok _ from rfl)
  have hc := hb.addType (show Declarations.addType _ "C" ⟨1⟩ = .ok _ from rfl)
  have hd := hc.addType (show Declarations.addType _ "D" ⟨2⟩ = .ok _ from rfl)
  have horder := hd.withPriorities [⟨3⟩, ⟨4⟩, ⟨2⟩]
  exact ⟨_, _, horder, rfl, rfl, rfl, rfl, commit_linear horder rfl⟩

end Declarations
end FeatureIndex
