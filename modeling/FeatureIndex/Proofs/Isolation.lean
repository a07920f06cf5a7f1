import FeatureIndex.Proofs.Comparing
import FeatureIndex.Proofs.Handed
import FeatureIndex.Proofs.Landing

/-!
# Iterators are isolated from changes, and can tell that there were some

`Watches` relates an iterator to the changes that its index went through: it was handed out at some
time, merged from others by hand, filtered, put behind others, moved and rebound, in any order and
with changes between, and each of its leaves was bound for the last time after a number of changes.
A copy of an iterator is the same iterator. Nothing is asked of the structures, or of where the
cursors of a merge stand.

Changes do not come through to such an iterator: it is what its own steps make it, over the contents
that its leaves had when they were bound. It is fresh exactly when no change since then has affected
any of them. And as long as its merges can tell those contents apart, and the one that it stands in
is in line, it walks them as a list cursor does (`Watches.spec`). Only merges that are put together
by hand can be out of line, and only until they are next moved to an end or bound anew.
-/

namespace FeatureIndex

namespace Iter

variable {σ : Type} {d : Definition} {it : Iter σ}

/-! ### Iterators over leaves of one index -/

/-- The iterator is over leaves of an index with this definition, and its merges go by its order. -/
inductive OverLeaves (d : Definition) : Iter σ → Prop
  | sorted {c : SortedCursor σ} (hkind : d.kind ≠ .bag) (hc : c.comparator = d.comparator) :
      OverLeaves d (sorted c)
  | bag {c : BagCursor σ} (hkind : d.kind = .bag) : OverLeaves d (bag c)
  | merge {m : Merge σ} (hkind : d.kind ≠ .bag) (hc : m.comparator = d.comparator)
      (hsubs : ∀ s ∈ m.subs, s.comparator = d.comparator) : OverLeaves d (merge m)
  | concat {c : Concat (Iter σ)} (h : ∀ s ∈ c.subs, OverLeaves d s) : OverLeaves d (concat c)
  | filtered {f : Filtered (Iter σ)} (h : OverLeaves d f.base) : OverLeaves d (filtered f)

/-- What the leaves hold does not matter, nor does where the cursors stand. -/
theorem overLeaves_still (f : σ → Snapshot → Snapshot) (it : Iter σ) :
    (still f it).OverLeaves d ↔ it.OverLeaves d := by
  induction it using ind with
  | sorted c =>
      exact ⟨fun | .sorted hkind hc => .sorted hkind hc, fun | .sorted hkind hc => .sorted hkind hc⟩
  | bag c => exact ⟨fun | .bag hkind => .bag hkind, fun | .bag hkind => .bag hkind⟩
  | merge m =>
      constructor
      · rintro (_ | _ | ⟨hkind, hc, hsubs⟩)
        exact .merge hkind hc fun s hs => List.forall_mem_map.mp hsubs s hs
      · rintro (_ | _ | ⟨hkind, hc, hsubs⟩)
        exact .merge hkind hc (List.forall_mem_map.mpr hsubs)
  | concat c ih =>
      rw [still_concat]
      constructor
      · rintro (_ | _ | _ | h)
        exact .concat fun s hs => (ih s hs).mp (h _ (List.mem_map_of_mem hs))
      · rintro (_ | _ | _ | h)
        exact .concat (List.forall_mem_map.mpr fun s hs => (ih s hs).mpr (h s hs))
  | filtered g ih =>
      obtain ⟨base, accepts⟩ := g
      constructor
      · rintro (_ | _ | _ | _ | h)
        exact .filtered (f := ⟨base, accepts⟩) (ih.mp h)
      · rintro (_ | _ | _ | _ | h)
        exact .filtered (f := ⟨_, accepts⟩) (ih.mpr h)

theorem overLeaves_of_still {f : σ → Snapshot → Snapshot} {it' : Iter σ}
    (h : it.OverLeaves d) (hstill : still f it' = still f it) : it'.OverLeaves d := by
  rw [← overLeaves_still f, hstill, overLeaves_still]
  exact h

namespace OverLeaves

theorem step (h : it.OverLeaves d) (m : Step) : (it.step m).OverLeaves d :=
  overLeaves_of_still h (still_step (fun _ v => v) m it)

theorem rebind (h : it.OverLeaves d) (live : σ → Snapshot) (r : Rebind) :
    (it.rebind live r).OverLeaves d :=
  overLeaves_of_still h (rebound_rebind live r live it)

theorem filter (h : it.OverLeaves d) (accepts : FeatureStructure → Bool) :
    (it.filter accepts).OverLeaves d := by
  have hfiltered : (Iter.filtered ⟨it, accepts⟩).OverLeaves d := .filtered h
  exact overLeaves_of_still hfiltered (still_filter (fun _ v => v) it accepts)

theorem ofList {subs : List (Iter σ)} (h : ∀ s ∈ subs, s.OverLeaves d) (comparator : Comparator)
    (kind : IndexKind) : (ofList subs comparator kind).OverLeaves d := by
  have hconcat : (Iter.concat ⟨subs, comparator, kind, none⟩).OverLeaves d := .concat h
  refine overLeaves_of_still (f := fun _ v => v) hconcat ?_
  rw [still_ofList, still_concat]

/-- Over leaves that are in order, merges can tell apart what is apart. -/
theorem sound (h : it.OverLeaves d) (hasc : d.kind ≠ .bag → ∀ l ∈ it.leaves,
    Ascending d.comparator.compareFully l.2.elements) (hapart : it.Apart) : it.Sound := by
  induction h with
  | sorted | bag => trivial
  | @merge m hkind hc hsubs =>
      refine ⟨fun s hs => ?_, fun l hl => ?_, hapart⟩
      · rw [hsubs s hs, hc]
        exact ⟨rfl, rfl⟩
      · obtain ⟨s, hs, rfl⟩ := List.mem_map.mp hl
        rw [hc]
        exact hasc hkind _ (List.mem_map_of_mem hs)
  | @concat c h ih =>
      refine sound_concat.mpr fun s hs => ih s hs ?_ (apart_concat.mp hapart s hs)
      intro hkind l hl
      refine hasc hkind l ?_
      obtain ⟨subs, comparator, kind, current⟩ := c
      rw [leaves, leavesAll_eq, List.mem_flatMap]
      exact ⟨s, hs, hl⟩
  | @filtered f h ih =>
      obtain ⟨base, accepts⟩ := f
      exact ih hasc hapart

theorem searchable {ix : Index} {it : Iter TypeCode} (h : it.OverLeaves ix.definition)
    (hix : ix.Sound) (target : FeatureStructure) : it.Searchable ix.snapshot target := by
  have hcuts := Index.cuts_passes hix target
  induction h with
  | @sorted c hkind hc =>
      rw [funext (Index.passes_of_ne_bag hkind target), ← hc] at hcuts
      exact .sorted (hcuts c.source)
  | @bag c hkind =>
      have hpasses : Index.passes ix.definition target =
          fun fs => decide (fs.id.val < target.id.val) := by
        funext fs
        rw [Index.passes, hkind]
      rw [hpasses] at hcuts
      exact .bag (hcuts c.source)
  | merge => exact .merge _
  | concat _ ih => exact .concat ih
  | filtered _ ih => exact .filtered ih

end OverLeaves

/-- A merge that is put together takes its cursors as they are, and goes by the order of one. -/
theorem exists_of_ofSorted {subs : List (SortedCursor σ)} (hok : ofSorted subs = .ok it) :
    ∃ first ∈ subs, it = merge (Merge.selectLeast ⟨subs, first.comparator, none, true⟩) := by
  obtain ⟨m, hm, hit⟩ := bind_eq_ok.mp hok
  cases hit
  unfold Merge.ofCursors at hm
  split at hm
  · cases hm
  next first rest =>
    split at hm
    · cases hm
    · cases hm
      exact ⟨first, List.mem_cons_self, rfl⟩

end Iter

namespace Index

variable {ix : Index} {cs : List Change} {it : Iter TypeCode} {times : List Nat}
  {admits : Iter TypeCode → Prop}

theorem overLeaves_assemble (d : Definition) (now : TypeCode → Snapshot) {us : List TypeCode}
    (hus : us ≠ []) : (assemble d now us).OverLeaves d := by
  have hleaf : ∀ t, (leafIter d t (now t)).OverLeaves d := by
    intro t
    unfold leafIter
    cases hkind : d.kind with
    | sorted | set => exact .sorted (by rw [hkind]; decide) rfl
    | bag => exact .bag hkind
  rcases eq_singleton_or_two_le hus with ⟨t, rfl⟩ | htwo
  · exact hleaf t
  · rw [assemble_of_two htwo]
    cases hkind : d.kind with
    | sorted =>
        refine .merge (by rw [hkind]; decide) rfl fun s hs => ?_
        obtain ⟨t, -, rfl⟩ := List.mem_map.mp hs
        rfl
    | set | bag =>
        refine Iter.OverLeaves.ofList (fun s hs => ?_) _ _
        obtain ⟨t, -, rfl⟩ := List.mem_map.mp hs
        exact hleaf t

/-! ### Watching an index -/

/-- An iterator on an index that has gone through some changes, with the number of changes after
which each of its leaves was bound for the last time. The merges that are put together by hand are
those that `admits` allows. -/
inductive Watches (admits : Iter TypeCode → Prop) (ix : Index) :
    List Change → Iter TypeCode → List Nat → Prop
  /-- The index hands out an iterator. -/
  | iterate {cs : List Change} {t : TypeCode} {withSubtypes : Bool} {it : Iter TypeCode}
      (hok : (ix.after cs).iterate t withSubtypes = .ok it) :
      Watches admits ix cs it (it.leaves.map fun _ => cs.length)
  /-- Cursors over single leaves are merged, wherever they stand. -/
  | merge {cs : List Change} {subs : List (SortedCursor TypeCode × Nat)} {it : Iter TypeCode}
      (h : ∀ p ∈ subs, Watches admits ix cs (.sorted p.1) [p.2])
      (hok : Iter.ofSorted (subs.map (·.1)) = .ok it) (hit : admits it) :
      Watches admits ix cs it (subs.map (·.2))
  /-- Iterators are put one after another. -/
  | ofList {cs : List Change} {subs : List (Iter TypeCode × List Nat)}
      (h : ∀ p ∈ subs, Watches admits ix cs p.1 p.2) (comparator : Comparator) (kind : IndexKind) :
      Watches admits ix cs (Iter.ofList (subs.map (·.1)) comparator kind) (subs.flatMap (·.2))
  /-- An iterator is filtered. -/
  | filter {cs : List Change} {it : Iter TypeCode} {times : List Nat}
      (h : Watches admits ix cs it times) (accepts : FeatureStructure → Bool) :
      Watches admits ix cs (it.filter accepts) times
  /-- The iterator behind a condition is taken out. -/
  | base {cs : List Change} {f : Filtered (Iter TypeCode)} {times : List Nat}
      (h : Watches admits ix cs (.filtered f) times) : Watches admits ix cs f.base times
  /-- An iterator moves within what it is bound to. -/
  | step {cs : List Change} {it : Iter TypeCode} {times : List Nat}
      (h : Watches admits ix cs it times) (s : Step) : Watches admits ix cs (it.step s) times
  /-- An iterator is bound anew. -/
  | rebind {cs : List Change} {it : Iter TypeCode} {times : List Nat}
      (h : Watches admits ix cs it times) (r : Rebind) :
      Watches admits ix cs (it.rebind (ix.after cs).snapshot r)
        (List.zipWith (fun n p => if p.2 then cs.length else n) times
          (it.marked (ix.after cs).snapshot r))
  /-- The index changes. -/
  | change {cs : List Change} {it : Iter TypeCode} {times : List Nat}
      (h : Watches admits ix cs it times) (c : Change) : Watches admits ix (cs ++ [c]) it times

/-- What a watching iterator keeps: its leaves are bound at their times, they are leaves of the
index, and it has come about as iterators do. -/
structure Watching (ix : Index) (cs : List Change) (it : Iter TypeCode) (times : List Nat) :
    Prop where
  leaves : List.Forall₂ (ix.BoundAt cs) it.leaves times
  overLeaves : it.OverLeaves ix.definition
  made : it.Made

theorem watching_iterate (h : ix.Sound) {t : TypeCode} {withSubtypes : Bool}
    (hok : (ix.after cs).iterate t withSubtypes = .ok it) :
    ix.Watching cs it (it.leaves.map fun _ => cs.length) := by
  have hsound := sound_after h cs
  have ht := mem_types_of_iterate hok
  obtain ⟨rest, hasked, hinfix⟩ := exists_asked hsound ht withSubtypes
  have hne : t :: rest ≠ [] := List.cons_ne_nil _ _
  have hmade := made_iterate hok
  -- the iterator is assembled, so its leaves are known
  rw [iterate_eq hsound ht, Except.ok.injEq, hasked, definition_after] at hok
  subst hok
  refine ⟨?_, overLeaves_assemble _ _ hne, hmade⟩
  rw [List.forall₂_map_right_iff, leaves_assemble _ _ hne]
  refine List.forall₂_same.mpr fun l hl => ?_
  obtain ⟨u, hu, rfl⟩ := List.mem_map.mp hl
  refine ⟨Nat.le_refl _, ?_, ?_⟩
  · rw [← types_after h cs]
    exact hinfix.subset hu
  · rw [List.take_length]

theorem watching_merge {subs : List (SortedCursor TypeCode × Nat)}
    (h : ∀ p ∈ subs, ix.Watching cs (.sorted p.1) [p.2])
    (hok : Iter.ofSorted (subs.map (·.1)) = .ok it) : ix.Watching cs it (subs.map (·.2)) := by
  have hover : ∀ s ∈ subs.map (·.1), ix.definition.kind ≠ .bag ∧
      s.comparator = ix.definition.comparator := by
    rw [List.forall_mem_map]
    intro p hp
    cases (h p hp).overLeaves with
    | sorted hkind hc => exact ⟨hkind, hc⟩
  have hmade : it.Made := .merge (List.forall_mem_map.mpr fun p hp => (h p hp).made) hok
  obtain ⟨first, hfirst, rfl⟩ := Iter.exists_of_ofSorted hok
  refine ⟨?_, .merge (hover first hfirst).1 (hover first hfirst).2 fun s hs => (hover s hs).2,
    hmade⟩
  show List.Forall₂ _ ((subs.map (·.1)).map _) _
  rw [List.map_map, List.forall₂_map_left_iff, List.forall₂_map_right_iff]
  refine List.forall₂_same.mpr fun p hp => ?_
  cases (h p hp).leaves with
  | cons hl _ => exact hl

theorem watching_ofList {subs : List (Iter TypeCode × List Nat)}
    (h : ∀ p ∈ subs, ix.Watching cs p.1 p.2) (comparator : Comparator) (kind : IndexKind) :
    ix.Watching cs (Iter.ofList (subs.map (·.1)) comparator kind) (subs.flatMap (·.2)) where
  leaves := by
    rw [Iter.leaves_ofList, List.flatMap_map]
    induction subs with
    | nil => exact .nil
    | cons p rest ih =>
        obtain ⟨hp, hrest⟩ := List.forall_mem_cons.mp h
        rw [List.flatMap_cons, List.flatMap_cons]
        exact List.rel_append hp.leaves (ih hrest)
  overLeaves := .ofList (List.forall_mem_map.mpr fun p hp => (h p hp).overLeaves) comparator kind
  made := .concat (List.forall_mem_map.mpr fun p hp => (h p hp).made) comparator kind

namespace Watching

theorem filter (h : ix.Watching cs it times) (accepts : FeatureStructure → Bool) :
    ix.Watching cs (it.filter accepts) times where
  leaves := by
    rw [Iter.leaves_filter]
    exact h.leaves
  overLeaves := h.overLeaves.filter accepts
  made := h.made.filter accepts

theorem base {f : Filtered (Iter TypeCode)} (h : ix.Watching cs (.filtered f) times) :
    ix.Watching cs f.base times where
  leaves := h.leaves
  overLeaves := by
    cases h.overLeaves with
    | filtered hbase => exact hbase
  made := .part h.made (List.mem_singleton_self _)

theorem step (h : ix.Watching cs it times) (s : Step) : ix.Watching cs (it.step s) times where
  leaves := by
    rw [Iter.leaves_step]
    exact h.leaves
  overLeaves := h.overLeaves.step s
  made := h.made.step s

theorem rebind (h : ix.Watching cs it times) (r : Rebind) :
    ix.Watching cs (it.rebind (ix.after cs).snapshot r)
      (List.zipWith (fun n p => if p.2 then cs.length else n) times
        (it.marked (ix.after cs).snapshot r)) where
  leaves := by
    rw [Iter.leaves_rebind]
    refine forall₂_settled ?_
    rw [Iter.map_fst_marked]
    exact h.leaves
  overLeaves := h.overLeaves.rebind _ r
  made := h.made.rebind _ r

theorem change (h : ix.Watching cs it times) (c : Change) : ix.Watching (cs ++ [c]) it times :=
  ⟨h.leaves.imp fun _ _ hl => hl.change c, h.overLeaves, h.made⟩

/-- What can be told apart, merges can tell apart. -/
theorem ready (h : ix.Watching cs it times) (hix : ix.Sound) (hapart : it.Apart) : it.Ready where
  placed := h.made.placed
  settled := h.made.settled
  sound := by
    refine h.overLeaves.sound (fun hkind => ?_) hapart
    refine (forall_mem_iff_forall₂ (Q := fun _ _ => True) h.leaves ?_).mpr
      (h.leaves.imp fun _ _ _ => trivial)
    rintro l n ⟨-, -, hl⟩
    have hkeeps := (sound_after hix (cs.take n)).keeps (by rwa [definition_after]) l.1
    rw [definition_after, ← hl] at hkeeps
    exact iff_true_intro hkeeps.ascending

/-- A rebinding brings the iterator in line, and leads where it should. -/
theorem lands (h : ix.Watching cs it times) (hix : ix.Sound) (r : Rebind)
    (hapart : (it.rebind (ix.after cs).snapshot r).Apart) :
    (it.rebind (ix.after cs).snapshot r).InLine ∧
      (it.rebind (ix.after cs).snapshot r).Walks (it.landing (ix.after cs).snapshot r) := by
  have hover : it.OverLeaves (ix.after cs).definition := by
    rw [definition_after]
    exact h.overLeaves
  exact Iter.inLine_rebind h.made.placed h.made.settled ((h.rebind r).ready hix hapart).sound
    fun target _ => hover.searchable (sound_after hix cs) target

end Watching

/-- **Every watching iterator is bound to what the index held at the times of its leaves.** -/
theorem Watches.watching (h : ix.Sound) (hw : ix.Watches admits cs it times) :
    ix.Watching cs it times := by
  induction hw with
  | iterate hok => exact watching_iterate h hok
  | merge _ hok _ ih => exact watching_merge ih hok
  | ofList _ comparator kind ih => exact watching_ofList ih comparator kind
  | filter _ accepts ih => exact ih.filter accepts
  | base _ ih => exact ih.base
  | step _ s ih => exact ih.step s
  | rebind _ r ih => exact ih.rebind r
  | change _ c ih => exact ih.change c

section Assemble

variable {d : Definition} {live now : TypeCode → Snapshot} {us : List TypeCode}

/-- An assembled iterator has one merge at most. -/
theorem tellable_of_apart (hus : us ≠ [])
    (hasc : d.kind = .sorted → ∀ t, Ascending d.comparator.compareFully (live t).elements)
    (h : ((assemble d now us).rebound live).Apart) : Tellable d live us where
  ascending hkind t _ := hasc hkind t
  separate hkind := by
    rcases eq_singleton_or_two_le hus with ⟨t, rfl⟩ | htwo
    · exact List.pairwise_singleton ..
    · have hviews : (Merge.rebound live (startMerge d now us)).views =
          us.map fun t => (live t).elements := by
        rw [rebound_startMerge, Merge.views_eq, binding_rebound_startMerge, ← Merge.views_eq,
          views_startMerge]
      rw [assemble_of_two htwo, hkind] at h
      rw [← hviews]
      exact h

end Assemble

/-- What an index hands out is in line. -/
theorem inLine_iterate (h : ix.Sound) {t : TypeCode} {withSubtypes : Bool}
    (hok : ix.iterate t withSubtypes = .ok it) (hapart : it.Apart) : it.InLine := by
  have ht := mem_types_of_iterate hok
  obtain ⟨rest, hasked, -⟩ := exists_asked h ht withSubtypes
  have hne : t :: rest ≠ [] := List.cons_ne_nil _ _
  rw [iterate_eq h ht, Except.ok.injEq, hasked] at hok
  subst hok
  have hpresent : ∀ l ∈ (assemble ix.definition ix.snapshot (t :: rest)).leaves,
      ix.snapshot l.1 = l.2 := by
    rw [leaves_assemble _ _ hne, List.forall_mem_map]
    exact fun _ _ => rfl
  have hasc : ix.definition.kind = .sorted → ∀ u,
      Ascending ix.definition.comparator.compareFully (ix.snapshot u).elements :=
    fun hkind u => (h.keeps (by rw [hkind]; decide) u).ascending
  exact (stands_assemble hne
    (tellable_of_apart hne hasc ((Iter.apart_rebound hpresent).mpr hapart))).inLine

/-- **A watching iterator is in line** if the merges that were put together by hand are, as long as
its merges can tell apart what they are bound to. -/
theorem Watches.inLine (h : ix.Sound) (hw : ix.Watches Iter.InLine cs it times)
    (hapart : it.Apart) : it.InLine := by
  induction hw with
  | @iterate cs _ _ _ hok => exact inLine_iterate (sound_after h cs) hok hapart
  | merge _ _ hit => exact hit
  | @ofList cs subs hsubs comparator kind _ =>
      rw [Iter.apart_ofList] at hapart
      refine Iter.Ready.inLine_ofList (fun s hs => ?_) comparator kind
      obtain ⟨p, hp, rfl⟩ := List.mem_map.mp hs
      exact ((hsubs p hp).watching h).ready h (hapart _ hs)
  | filter hw accepts ih =>
      rw [Iter.apart_filter] at hapart
      exact ((hw.watching h).ready h hapart).inLine_filter (ih hapart) accepts
  | @base cs f times hw ih =>
      obtain ⟨base, accepts⟩ := f
      cases ih hapart with
      | filtered hbase => exact hbase
  | step hw s ih =>
      rw [Iter.apart_step] at hapart
      exact ((hw.watching h).ready h hapart).inLine_step (ih hapart) s
  | rebind hw r _ => exact ((hw.watching h).lands h r hapart).1
  | change _ c ih => exact ih hapart

/-! ### Changes between steps -/

/-- An event that does not bind an iterator anew. -/
def Event.Keeps : Event → Prop
  | .step _ | .change _ => True
  | .rebind _ => False

/-- The step of an event, if it is one. -/
def Event.step? : Event → Option Step
  | .step m => some m
  | .rebind _ | .change _ => none

/-- **Changes do not come through to an iterator**, nor to a list cursor: both are what the steps
between them make them. -/
theorem foldl_play (us : List TypeCode) (s : Scene) {es : List Event} (hes : ∀ e ∈ es, e.Keeps) :
    (es.foldl (Scene.play us) s).iter =
        (es.filterMap Event.step?).foldl (fun it m => it.step m) s.iter ∧
      (es.foldl (Scene.play us) s).cursor =
        (es.filterMap Event.step?).foldl (fun l m => l.step m) s.cursor := by
  induction es generalizing s with
  | nil => exact ⟨rfl, rfl⟩
  | cons e rest ih =>
      obtain ⟨he, hrest⟩ := List.forall_mem_cons.mp hes
      rw [List.foldl_cons]
      obtain ⟨hiter, hcursor⟩ := ih (s.play us e) hrest
      rw [hiter, hcursor]
      cases e with
      | step m => exact ⟨rfl, rfl⟩
      | rebind r => exact he.elim
      | change c => exact ⟨rfl, rfl⟩

/-- A cursor over the leaf of a type of the index of marks. -/
def Sample.cursor (t : TypeCode) : SortedCursor TypeCode :=
  .start t Sample.definition.comparator (Sample.index.snapshot t)

/-- A merge of the marks with the words, which the cursor over them has left behind. -/
def Sample.late : Merge TypeCode :=
  Merge.selectLeast
    ⟨[Sample.cursor ⟨1⟩, (Sample.cursor ⟨2⟩).step .next], Sample.definition.comparator, none, true⟩

end Index
end FeatureIndex
