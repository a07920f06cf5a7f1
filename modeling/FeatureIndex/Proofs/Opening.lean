import FeatureIndex.Proofs.Comparing
import FeatureIndex.Proofs.Positioning
import Mathlib.Data.List.Flatten

/-!
# Merges open where their cursors stand

`Merge.ofCursors` takes cursors as they stand and moves none of them. The merge goes on from there:
step by step it visits what its cursors have before them, in order (`Merge.visits_flow`). So it
opens at the first of all elements, and visits all of them, exactly where every cursor has its whole
list before it; `Merge.ofCursors_spec` says so of all cursors over ordered sets that can be merged.

A merge depends on nothing but what its cursors have before them (`Merge.isValid_flow_congr` and
`Merge.element?_flow_congr`, which steps keep). Hence it behaves as the merge of cursors that stand
at the first elements of lists cut down to that (`SortedCursor.afresh`), and the latter is a list
cursor over the union.
-/

namespace FeatureIndex

/-- The order of a sound set, in either regime, is one that its comparator keeps. -/
theorem OrderedSet.Sound.keeps {s : OrderedSet} (h : s.Sound) : s.comparator.Keeps s.elements := by
  unfold Sound order at h
  split at h
  · exact .inl h
  · exact .inr h

/-- Each step forward leaves one element less. -/
theorem ListCursor.remaining_iterate_next (c : ListCursor) (k : Nat) :
    ((step .next)^[k] c).remaining = c.remaining.drop k := by
  induction k with
  | zero => rfl
  | succ k ih =>
      rw [Function.iterate_succ_apply', remaining_step_next, ih, List.tail_drop]

/-! ### Cursors over ordered sets -/

namespace SortedCursor

variable {σ : Type} {s : SortedCursor σ}

/-- The cursor is bound to what a set held at some moment, and stands anywhere there or nowhere. -/
structure OverSet (s : SortedCursor σ) : Prop where
  inRange : s.cursor.list.InRange
  bound : ∃ set : OrderedSet, set.Reachable ∧ s.comparator = set.comparator ∧
    s.cursor.view = set.snapshot

theorem OverSet.step (h : s.OverSet) (m : Step) : (s.step m).OverSet := by
  refine ⟨?_, ?_⟩
  · rw [s.list_step]
    exact h.inRange.step m
  · rw [s.view_step]
    exact h.bound

theorem OverSet.ascending (h : s.OverSet) :
    Ascending s.comparator.compareFully s.cursor.view.elements := by
  obtain ⟨set, hset, hc, hview⟩ := h.bound
  rw [hc, hview]
  exact hset.sound.keeps.ascending

theorem remaining_sublist (s : SortedCursor σ) :
    s.remaining.Sublist s.cursor.view.elements := by
  rw [remaining, ListCursor.remaining]
  split
  · exact List.drop_sublist ..
  · exact List.nil_sublist _

theorem remaining_step_first (s : SortedCursor σ) :
    (s.step .first).remaining = s.cursor.view.elements := by
  rw [remaining, s.list_step, ListCursor.remaining_step_first]
  rfl

/-- The cursor at the first element of a list that has nothing but what is before it. -/
def afresh (s : SortedCursor σ) : SortedCursor σ :=
  .start s.source s.comparator { s.cursor.view with elements := s.remaining }

theorem list_afresh (s : SortedCursor σ) :
    s.afresh.cursor.list = ListCursor.step .first ⟨s.remaining, none⟩ := rfl

theorem remaining_afresh (s : SortedCursor σ) : s.afresh.remaining = s.remaining := by
  rw [remaining, list_afresh, ListCursor.remaining_step_first]

end SortedCursor

namespace Merge

variable {σ : Type} {c : Comparator} {subs subs' : List (SortedCursor σ)}

/-! ### What a merge visits -/

/-- Step by step, the merge visits exactly these elements: after `k` steps it stands at element `k`,
and nowhere when there is none. -/
def Visits (m : Merge σ) (l : List FeatureStructure) : Prop :=
  ∀ k, ((step .next)^[k] m).isValid = l[k]?.isSome ∧ ((step .next)^[k] m).element? = l[k]?

theorem Visits.unique {m : Merge σ} {l l' : List FeatureStructure} (h : m.Visits l)
    (h' : m.Visits l') : l = l' :=
  List.ext_getElem? fun k => (h k).2.symm.trans (h' k).2

/-- A merge that stands at the first element of a list, as a list cursor does, visits all of it. -/
theorem Stands.visits {m : Merge σ} {l : List FeatureStructure}
    (h : m.Stands (ListCursor.step .first ⟨l, none⟩)) : m.Visits l := by
  intro k
  have hk : Stands ((Merge.step .next)^[k] m)
      ((ListCursor.step .next)^[k] (ListCursor.step .first ⟨l, none⟩)) := by
    induction k with
    | zero => exact h
    | succ k ih =>
        rw [Function.iterate_succ_apply', Function.iterate_succ_apply']
        exact ih.step .next
  have helement : ((ListCursor.step .next)^[k] (ListCursor.step .first ⟨l, none⟩)).element? =
      l[k]? := by
    rw [ListCursor.element?_eq_head?, ListCursor.remaining_iterate_next,
      ListCursor.remaining_step_first, List.head?_drop]
  exact ⟨by rw [hk.isValid, hk.inRange.isValid_eq, helement], by rw [hk.element?, helement]⟩

/-! ### Going on from where the cursors stand -/

theorem isValid_flow_congr (h : Alike subs subs') (c : Comparator) :
    (flow c subs).isValid = (flow c subs').isValid :=
  congrArg Option.isSome (h.select_eq c)

theorem element?_flow_congr (h : Alike subs subs') (c : Comparator) :
    (flow c subs).element? = (flow c subs').element? := by
  show ((select c .lt subs).bind fun i => subs[i]?.bind SortedCursor.element?) =
    (select c .lt subs').bind fun i => subs'[i]?.bind SortedCursor.element?
  rw [h.select_eq c]
  congr 1
  funext i
  have hrel := rel_getElem? h i
  generalize subs[i]? = o at hrel
  generalize subs'[i]? = o' at hrel
  cases hrel with
  | none => rfl
  | some hs => exact SortedCursor.element?_congr hs

/-- **A step keeps cursors alike**, and the merges go on from where these stand. -/
theorem step_flow_congr (h : Alike subs subs') (c : Comparator) : ∃ us us', Alike us us' ∧
    (flow c subs).step .next = flow c us ∧ (flow c subs').step .next = flow c us' := by
  rcases exists_least c subs with ⟨hnone, -⟩ | ⟨i, s, x, hi, -⟩
  · -- nothing is left, and a merge that has left its lists stays where it is
    have hstep : ∀ us : List (SortedCursor σ), select c .lt us = none →
        (flow c us).step .next = flow c us := fun us hus =>
      step_ahead_none true (m := flow c us) hus
    exact ⟨subs, subs', h, hstep subs hnone, hstep subs' (h.select_eq c ▸ hnone)⟩
  · exact ⟨_, _, h.step_next i, step_flow hi, step_flow (h.select_eq c ▸ hi)⟩

/-- Merges of cursors that have the same before them visit the same. -/
theorem Visits.congr {l : List FeatureStructure} (h : Alike subs subs')
    (hl : (flow c subs').Visits l) : (flow c subs).Visits l := by
  have hsteps : ∀ k, ∃ us us', Alike us us' ∧ (step .next)^[k] (flow c subs) = flow c us ∧
      (step .next)^[k] (flow c subs') = flow c us' := by
    intro k
    induction k with
    | zero => exact ⟨subs, subs', h, rfl, rfl⟩
    | succ k ih =>
        obtain ⟨us, us', halike, hus, hus'⟩ := ih
        rw [Function.iterate_succ_apply', Function.iterate_succ_apply', hus, hus']
        exact step_flow_congr halike c
  intro k
  obtain ⟨us, us', halike, hus, hus'⟩ := hsteps k
  have hk := hl k
  rw [hus'] at hk
  rw [hus, isValid_flow_congr halike, element?_flow_congr halike]
  exact hk

/-! ### Opening -/

/-- What a merge is made of: at least one cursor, each over an ordered set and standing anywhere
there or nowhere, which all order as one comparator does, and which are bound to no two elements
that agree in key and id. -/
structure Mergeable (c : Comparator) (subs : List (SortedCursor σ)) : Prop where
  ne_nil : subs ≠ []
  overSet : ∀ s ∈ subs, s.OverSet
  agrees : ∀ s ∈ subs, s.comparator.Agrees c
  distinct : (subs.flatMap fun s => s.cursor.view.elements).Pairwise
    fun a b => c.compareFully a b ≠ .eq

/-- All that some cursors have before them, in order. -/
def pending (c : Comparator) (subs : List (SortedCursor σ)) : List FeatureStructure :=
  FeatureIndex.union c.compareFully (subs.map SortedCursor.remaining)

/-- All that some cursors are bound to, in order. -/
def whole (c : Comparator) (subs : List (SortedCursor σ)) : List FeatureStructure :=
  FeatureIndex.union c.compareFully (subs.map fun s => s.cursor.view.elements)

/-- All is before the cursors only if nothing of any list is behind one of them. -/
theorem pending_eq_whole_iff (c : Comparator) (subs : List (SortedCursor σ)) :
    pending c subs = whole c subs ↔ ∀ s ∈ subs, s.remaining = s.cursor.view.elements := by
  constructor
  · intro heq
    by_contra hnot
    push Not at hnot
    obtain ⟨s, hs, hne⟩ := hnot
    -- a list of which something is behind its cursor makes the sum of the lengths less
    have hlt : (subs.map fun s => s.remaining.length).sum <
        (subs.map fun s => s.cursor.view.elements.length).sum := by
      refine List.sum_lt_sum _ _ (fun t _ => t.remaining_sublist.length_le) ⟨s, hs, ?_⟩
      exact Nat.lt_of_not_le fun hle => hne (s.remaining_sublist.eq_of_length_le hle)
    have hlength := congrArg List.length heq
    rw [pending, whole, length_union, length_union, List.map_map, List.map_map] at hlength
    exact Nat.ne_of_lt hlt hlength
  · intro hall
    rw [pending, whole, List.map_congr_left hall]

namespace Mergeable

theorem of_agrees (h : Mergeable c subs) {d : Comparator} (hd : d.Agrees c) :
    Mergeable d subs where
  ne_nil := h.ne_nil
  overSet := h.overSet
  agrees s hs := by
    obtain ⟨hsystem, hkeys⟩ := h.agrees s hs
    exact ⟨hsystem.trans hd.1.symm, hkeys.trans hd.2.symm⟩
  distinct := by
    rw [hd.compareFully]
    exact h.distinct

theorem step (h : Mergeable c subs) (m : Step) :
    Mergeable c (subs.map (SortedCursor.step m)) where
  ne_nil := by simpa using h.ne_nil
  overSet := by
    rw [List.forall_mem_map]
    exact fun s hs => (h.overSet s hs).step m
  agrees := by
    rw [List.forall_mem_map]
    exact h.agrees
  distinct := by
    rw [List.flatMap_map]
    simpa only [SortedCursor.view_step] using h.distinct

/-- Cut down to what is before them, the lists of the cursors can be merged all the more. -/
theorem sound_afresh (h : Mergeable c subs) :
    Sound ⟨subs.map SortedCursor.afresh, c, none, true⟩ := by
  have hviews : views ⟨subs.map SortedCursor.afresh, c, none, true⟩ =
      subs.map SortedCursor.remaining := by
    rw [views, List.map_map]
    rfl
  refine ⟨?_, ?_, ?_⟩
  · rw [List.forall_mem_map]
    exact h.agrees
  · rw [hviews, List.forall_mem_map]
    intro s hs
    have hasc := (h.overSet s hs).ascending
    rw [(h.agrees s hs).compareFully] at hasc
    exact hasc.sublist s.remaining_sublist
  · rw [hviews]
    have hsub := List.Sublist.flatMap_right subs fun s _ => s.remaining_sublist
    exact List.pairwise_map.mpr (List.pairwise_flatMap.mp (h.distinct.sublist hsub)).2

theorem ascending_pending (h : Mergeable c subs) : Ascending c.compareFully (pending c subs) := by
  have hasc := h.sound_afresh.ascending_union
  rwa [union, views, List.map_map] at hasc

/-- **A merge visits what its cursors have before them**, step by step. -/
theorem visits_flow (h : Mergeable c subs) : (flow c subs).Visits (pending c subs) := by
  have hfirst : ∀ s ∈ subs.map SortedCursor.afresh,
      s.cursor.list = ListCursor.step .first ⟨s.cursor.view.elements, none⟩ := by
    rw [List.forall_mem_map]
    exact fun s _ => s.list_afresh
  have hvisits := (stands_start h.sound_afresh hfirst).visits
  rw [union, views, List.map_map] at hvisits
  refine Visits.congr ?_ hvisits
  exact List.forall₂_map_right_iff.mpr
    (List.forall₂_same.mpr fun s _ => s.remaining_afresh.symm)

end Mergeable

/-- Cursors that order alike can be merged, and the merge goes on from where they stand. -/
theorem exists_ofCursors (h : Mergeable c subs) :
    ∃ d : Comparator, d.Agrees c ∧ ofCursors subs = .ok (flow d subs) := by
  cases subs with
  | nil => exact absurd rfl h.ne_nil
  | cons s rest =>
      obtain ⟨hsystem, hkeys⟩ := h.agrees s List.mem_cons_self
      refine ⟨s.comparator, ⟨hsystem, hkeys⟩, ?_⟩
      have hnone : (s :: rest).find? (fun t => !t.comparator.ordersLike s.comparator) = none := by
        rw [List.find?_eq_none]
        intro t ht
        obtain ⟨hsystem', hkeys'⟩ := h.agrees t ht
        simp [Comparator.ordersLike, hsystem, hkeys, hsystem', hkeys']
      rw [ofCursors, hnone]
      rfl

/-- **A merge opens where its cursors stand.** Cursors that can be merged are merged, and the merge
visits all that they have before them, in ascending order, each element once. It visits all that
they are bound to, from the least element on, exactly if every cursor has its whole list before it:
if it stands at the first element, or there is none. A move to the first element brings any merge
there. -/
theorem ofCursors_spec (h : Mergeable c subs) : ∃ m, ofCursors subs = .ok m ∧
    Ascending c.compareFully (pending c subs) ∧ m.Visits (pending c subs) ∧
    Ascending c.compareFully (whole c subs) ∧ (m.step .first).Visits (whole c subs) ∧
    (m.Visits (whole c subs) ↔ ∀ s ∈ subs, s.remaining = s.cursor.view.elements) := by
  obtain ⟨d, hd, hok⟩ := exists_ofCursors h
  have hvisits : ∀ us : List (SortedCursor σ), Mergeable c us →
      (flow d us).Visits (pending c us) := by
    intro us hus
    rw [pending, ← hd.compareFully]
    exact (hus.of_agrees hd).visits_flow
  have hfirst := h.step .first
  have hrewound : pending c (subs.map (SortedCursor.step .first)) = whole c subs := by
    rw [pending, whole, List.map_map]
    congr 1
    exact List.map_congr_left fun s _ => s.remaining_step_first
  have hhere := hvisits subs h
  refine ⟨flow d subs, hok, h.ascending_pending, hhere, ?_, ?_, ?_⟩
  · rw [← hrewound]
    exact hfirst.ascending_pending
  · rw [← hrewound]
    exact hvisits _ hfirst
  · rw [← pending_eq_whole_iff c]
    exact ⟨hhere.unique, fun heq => heq ▸ hhere⟩

namespace Sample

open Index.Sample (mark definition)

/-- The marks at places 1 and 2. -/
def marks : OrderedSet :=
  ((OrderedSet.empty definition.comparator .sorted 0 4).apply (.insert false (mark 0 1))).apply
    (.insert false (mark 1 2))

/-- A cursor that has left the first mark for the second one. -/
def late : SortedCursor Unit :=
  (SortedCursor.start () definition.comparator marks.snapshot).step .next

theorem mergeable_late : Mergeable definition.comparator [late] where
  ne_nil := nofun
  overSet := by
    rw [List.forall_mem_singleton]
    have hmarks : marks.Reachable := ((OrderedSet.Reachable.empty ..).change _).change _
    have hstart : (SortedCursor.start () definition.comparator marks.snapshot).OverSet :=
      ⟨ListCursor.inRange_seek ⟨marks.elements, none⟩ 0, marks, hmarks, rfl, rfl⟩
    exact hstart.step .next
  agrees := by
    rw [List.forall_mem_singleton]
    exact ⟨rfl, rfl⟩
  distinct := by decide

end Sample

open Index.Sample (mark definition)
open Sample (late mergeable_late)

/-- A merge of one cursor that has left the first of two marks does not open at the first one. -/
theorem not_opens_at_first : ¬ ∀ (c : Comparator) (subs : List (SortedCursor Unit)),
    Mergeable c subs → ∃ m, ofCursors subs = .ok m ∧ m.element? = (whole c subs).head? ∧
      m.Visits (whole c subs) := by
  intro hall
  obtain ⟨m, hok, -, hwhole⟩ := hall _ _ mergeable_late
  cases hok
  have hpending := mergeable_late.visits_flow.unique hwhole
  exact absurd ((pending_eq_whole_iff ..).mp hpending late List.mem_cons_self) (by decide)

/-- The first mark is left out, until the merge is moved to its first element. -/
theorem ofCursors_late : ∃ m, ofCursors [late] = .ok m ∧ m.Visits [mark 1 2] ∧
    (m.step .first).Visits [mark 0 1, mark 1 2] := by
  obtain ⟨m, hok, -, hvisits, -, hfirst, -⟩ := ofCursors_spec mergeable_late
  have hpending : pending definition.comparator [late] = [mark 1 2] :=
    union_singleton (by unfold Ascending; decide)
  have hwhole : whole definition.comparator [late] = [mark 0 1, mark 1 2] :=
    union_singleton (by unfold Ascending; decide)
  rw [hpending] at hvisits
  rw [hwhole] at hfirst
  exact ⟨m, hok, hvisits, hfirst⟩

end Merge
end FeatureIndex
