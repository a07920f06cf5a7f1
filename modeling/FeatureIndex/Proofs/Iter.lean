import FeatureIndex.Iter
import FeatureIndex.Proofs.Concat
import FeatureIndex.Proofs.Filtered
import FeatureIndex.Proofs.Merge

/-!
# Iterators follow list cursors

An iterator of any kind, nested to any depth, stands where a list cursor over one list stands: the
contents of its leaves as it is bound to them, merged, concatenated and filtered as the tree of
cursors says (`bound`). `Iter.Stands` is that relation, built along the depth of the tree as the
moves are, and `follows_walkTo` says that moves keep it.

No move within what an iterator is bound to changes more than positions (`still_step`). Binding to
the present contents leads into the list of the present contents (`stands_rebind_first`,
`stands_rebind_last`), provided that every merge in the tree can tell those apart (`Sound`).
-/

namespace FeatureIndex.Iter

variable {σ : Type}

/-! ### What an iterator walks -/

mutual

/-- The list that the iterator walks. -/
def bound : Iter σ → List FeatureStructure
  | sorted c => c.cursor.view.elements
  | bag c => c.cursor.view.elements
  | merge m => m.union
  | concat ⟨subs, _, _, _⟩ => boundAll subs
  | filtered ⟨base, accepts⟩ => (bound base).filter accepts

/-- The lists that some iterators walk, one after another. -/
def boundAll : List (Iter σ) → List FeatureStructure
  | [] => []
  | it :: rest => bound it ++ boundAll rest

end

mutual

/-- The merges of the iterator can tell everything that they are bound to apart. -/
def Sound : Iter σ → Prop
  | sorted _ | bag _ => True
  | merge m => m.Sound
  | concat ⟨subs, _, _, _⟩ => SoundAll subs
  | filtered ⟨base, _⟩ => Sound base

/-- The merges of some iterators can tell everything that they are bound to apart. -/
def SoundAll : List (Iter σ) → Prop
  | [] => True
  | it :: rest => Sound it ∧ SoundAll rest

end

mutual

/-- The iterator standing nowhere, with other snapshots: `f` says what takes the place of the
snapshot of a source. -/
def still (f : σ → Snapshot → Snapshot) : Iter σ → Iter σ
  | sorted c => sorted ⟨c.source, c.comparator, ⟨f c.source c.cursor.view, none⟩⟩
  | bag c => bag ⟨c.source, ⟨f c.source c.cursor.view, none⟩⟩
  | merge m =>
    let subs := m.subs.map fun c => ⟨c.source, c.comparator, ⟨f c.source c.cursor.view, none⟩⟩
    merge ⟨subs, m.comparator, none, true⟩
  | concat ⟨subs, comparator, kind, _⟩ => concat ⟨stillAll f subs, comparator, kind, none⟩
  | filtered ⟨base, accepts⟩ => filtered ⟨still f base, accepts⟩

/-- Some iterators standing nowhere, with other snapshots. -/
def stillAll (f : σ → Snapshot → Snapshot) : List (Iter σ) → List (Iter σ)
  | [] => []
  | it :: rest => still f it :: stillAll f rest

end

/-- The iterator bound to the present contents, standing nowhere. -/
def rebound (live : σ → Snapshot) (it : Iter σ) : Iter σ := it.still fun source _ => live source

theorem boundAll_eq (subs : List (Iter σ)) : boundAll subs = subs.flatMap bound := by
  induction subs with
  | nil => rfl
  | cons it rest ih => rw [boundAll, ih, List.flatMap_cons]

theorem soundAll_iff {subs : List (Iter σ)} : SoundAll subs ↔ ∀ it ∈ subs, it.Sound := by
  induction subs with
  | nil => exact ⟨nofun, fun _ => trivial⟩
  | cons it rest ih => rw [SoundAll, ih, List.forall_mem_cons]

theorem sound_concat {c : Concat (Iter σ)} : (concat c).Sound ↔ ∀ s ∈ c.subs, s.Sound := by
  obtain ⟨subs, comparator, kind, current⟩ := c
  exact soundAll_iff

theorem stillAll_eq (f : σ → Snapshot → Snapshot) (subs : List (Iter σ)) :
    stillAll f subs = subs.map (still f) := by
  induction subs with
  | nil => rfl
  | cons it rest ih => rw [stillAll, ih, List.map_cons]

theorem depth_le_depthAll {subs : List (Iter σ)} {it : Iter σ} (h : it ∈ subs) :
    it.depth ≤ depthAll subs := by
  induction subs with
  | nil => cases h
  | cons it' rest ih =>
      rw [depthAll]
      rcases List.mem_cons.mp h with rfl | h
      · exact Nat.le_max_left ..
      · exact Nat.le_trans (ih h) (Nat.le_max_right ..)

/-- Induction over the tree of cursors. -/
theorem ind {P : Iter σ → Prop} (sorted : ∀ c, P (sorted c)) (bag : ∀ c, P (bag c))
    (merge : ∀ m, P (merge m)) (concat : ∀ c, (∀ s ∈ c.subs, P s) → P (concat c))
    (filtered : ∀ f, P f.base → P (filtered f)) (it : Iter σ) : P it := by
  have hdepth : ∀ d (it : Iter σ), it.depth ≤ d → P it := by
    intro d
    induction d with
    | zero =>
        rintro (c | c | m | ⟨subs, comparator, kind, current⟩ | ⟨base, accepts⟩) hd <;> cases hd
    | succ d ih =>
        intro it hd
        cases it with
        | sorted c => exact sorted c
        | bag c => exact bag c
        | merge m => exact merge m
        | concat c =>
            obtain ⟨subs, comparator, kind, current⟩ := c
            exact concat _ fun s hs =>
              ih s (Nat.le_trans (depth_le_depthAll hs) (Nat.le_of_succ_le_succ hd))
        | filtered f =>
            obtain ⟨base, accepts⟩ := f
            exact filtered _ (ih base (Nat.le_of_succ_le_succ hd))
  exact hdepth it.depth it (Nat.le_refl _)

theorem get_eq_ok_iff {it : Iter σ} {fs : FeatureStructure} :
    it.get = .ok fs ↔ it.isValid = true ∧ it.element? = some fs := by
  rw [get]
  cases it.isValid <;> cases it.element? <;> simp

/-! ### Standing -/

/-- Iterators up to a depth and the list cursors that they stand with. -/
def standsTo : Nat → Iter σ → ListCursor → Prop
  | 0, _, _ => False
  | depth + 1, it, l =>
    match it with
    | sorted c => c.cursor.list = l ∧ l.InRange
    | bag c => c.cursor.list = l ∧ l.InRange
    | merge m => m.Stands l
    | concat c => c.Stands (standsTo depth) l
    | filtered f => f.Stands (standsTo depth) l

/-- The iterator stands where the list cursor stands. -/
def Stands (it : Iter σ) (l : ListCursor) : Prop := standsTo it.depth it l

section Stands

variable {it : Iter σ} {l : ListCursor}

theorem standsTo_mono {d d' : Nat} (hd : d ≤ d') (h : standsTo d it l) : standsTo d' it l := by
  -- a level of depth for each level of the tree
  induction d generalizing d' it l with
  | zero => exact h.elim
  | succ d ih =>
      cases d' with
      | zero => omega
      | succ d' =>
          cases it with
          | sorted c => exact h
          | bag c => exact h
          | merge m => exact h
          | concat c =>
              obtain ⟨cs, hsubs, hrest⟩ := h
              exact ⟨cs, hsubs.imp fun _ _ hs => ih (Nat.le_of_succ_le_succ hd) hs, hrest⟩
          | filtered f =>
              obtain ⟨b, hb, hrest⟩ := h
              exact ⟨b, ih (Nat.le_of_succ_le_succ hd) hb, hrest⟩

/-- The depth of the tree is enough. -/
theorem stands_of_standsTo {d : Nat} (h : standsTo d it l) : it.Stands l := by
  induction d generalizing it l with
  | zero => exact h.elim
  | succ d ih =>
      cases it with
      | sorted c => exact h
      | bag c => exact h
      | merge m => exact h
      | concat c =>
          obtain ⟨subs, comparator, kind, current⟩ := c
          obtain ⟨cs, hsubs, hrest⟩ := h
          have hdepth := (List.forall₂_and_left subs cs).mpr ⟨fun _ => depth_le_depthAll, hsubs⟩
          exact ⟨cs, hdepth.imp fun _ _ hs => standsTo_mono hs.1 (ih hs.2), hrest⟩
      | filtered f =>
          obtain ⟨base, accepts⟩ := f
          obtain ⟨b, hb, hrest⟩ := h
          exact ⟨b, ih hb, hrest⟩

theorem joined_eq_flatMap {subs : List (Iter σ)} {cs : List ListCursor}
    (h : List.Forall₂ (fun s c => c.items = bound s) subs cs) :
    Concat.joined cs = subs.flatMap bound := by
  induction h with
  | nil => rfl
  | cons hs _ ih => exact congrArg₂ (· ++ ·) hs ih

/-- The list cursor walks the list that the iterator is bound to. -/
theorem items_of_standsTo {d : Nat} (h : standsTo d it l) : l.items = it.bound := by
  induction d generalizing it l with
  | zero => exact h.elim
  | succ d ih =>
      cases it with
      | sorted c => obtain ⟨rfl, -⟩ := h; rfl
      | bag c => obtain ⟨rfl, -⟩ := h; rfl
      | merge m => exact Merge.Stands.items h
      | concat c =>
          obtain ⟨subs, comparator, kind, current⟩ := c
          obtain ⟨cs, hsubs, hitems, -⟩ := h
          rw [hitems, bound, boundAll_eq]
          exact joined_eq_flatMap (List.Forall₂.imp (fun _ _ hs => ih hs) hsubs)
      | filtered f =>
          obtain ⟨base, accepts⟩ := f
          obtain ⟨b, hb, hitems, -⟩ := h
          rw [hitems, bound, ih hb]

theorem Stands.items (h : it.Stands l) : l.items = it.bound := items_of_standsTo h

end Stands

/-! ### The span -/

theorem totalSize_append (vs ws : List Snapshot) :
    Snapshot.totalSize (vs ++ ws) = Snapshot.totalSize vs + Snapshot.totalSize ws := by
  induction vs with
  | nil => simp [Snapshot.totalSize]
  | cons v vs ih => simp [Snapshot.totalSize, ih, Nat.add_assoc]

theorem totalSize_eq (vs : List Snapshot) :
    Snapshot.totalSize vs = (vs.map fun v => v.elements.length).sum := by
  induction vs with
  | nil => rfl
  | cons v vs ih => rw [Snapshot.totalSize, ih]; rfl

theorem leavesAll_eq (subs : List (Iter σ)) : leavesAll subs = subs.flatMap leaves := by
  induction subs with
  | nil => rfl
  | cons it rest ih => rw [leavesAll, ih, List.flatMap_cons]

mutual

/-- What an iterator walks is no longer than its leaves together. -/
theorem length_bound_le (it : Iter σ) :
    it.bound.length ≤ Snapshot.totalSize (it.leaves.map (·.2)) := by
  cases it with
  | sorted c => exact Nat.le_refl _
  | bag c => exact Nat.le_refl _
  | merge m =>
      rw [bound, Merge.union, length_union, leaves, totalSize_eq, Merge.views]
      simp [Function.comp_def]
  | concat c =>
      obtain ⟨subs, comparator, kind, current⟩ := c
      exact length_boundAll_le subs
  | filtered f =>
      obtain ⟨base, accepts⟩ := f
      exact Nat.le_trans (List.length_filter_le ..) (length_bound_le base)

theorem length_boundAll_le (subs : List (Iter σ)) :
    (boundAll subs).length ≤ Snapshot.totalSize ((leavesAll subs).map (·.2)) := by
  cases subs with
  | nil => exact Nat.le_refl _
  | cons it rest =>
      rw [boundAll, leavesAll, List.length_append, List.map_append, totalSize_append]
      exact Nat.add_le_add (length_bound_le it) (length_boundAll_le rest)

end

theorem length_bound_le_span (it : Iter σ) : it.bound.length ≤ it.span :=
  Nat.le_trans it.length_bound_le (Nat.le_add_right ..)

/-! ### Moving -/

/-- **Iterators up to any depth follow list cursors.** -/
theorem follows_walkTo (d : Nat) : (walkTo d).Follows (standsTo (σ := σ) d) := by
  induction d with
  | zero => exact ⟨False.elim, False.elim, False.elim, fun h => h.elim, False.elim⟩
  | succ d ih =>
      -- each kind of cursor follows, given that the cursors below it do
      refine ⟨?_, ?_, ?_, ?_, ?_⟩
      · intro it l h
        cases it with
        | sorted c => exact h.2
        | bag c => exact h.2
        | merge m => exact Merge.Stands.inRange h
        | concat c => exact Concat.Stands.inRange ih h
        | filtered f => exact Filtered.Stands.inRange h
      · intro it l h
        cases it with
        | sorted c => obtain ⟨rfl, hrange⟩ := h; exact Cursor.isValid_eq hrange
        | bag c => obtain ⟨rfl, hrange⟩ := h; exact Cursor.isValid_eq hrange
        | merge m => exact Merge.Stands.isValid h
        | concat c => exact Concat.Stands.isValid h
        | filtered f => exact Filtered.Stands.isValid ih h
      · intro it l h
        cases it with
        | sorted c => obtain ⟨rfl, -⟩ := h; rfl
        | bag c => obtain ⟨rfl, -⟩ := h; rfl
        | merge m => exact Merge.Stands.element? h
        | concat c => exact Concat.Stands.element? ih h
        | filtered f => exact Filtered.Stands.element? ih h
      · intro it l h m
        cases it with
        | sorted c => obtain ⟨rfl, hrange⟩ := h; exact ⟨c.cursor.list_step m, hrange.step m⟩
        | bag c => obtain ⟨rfl, hrange⟩ := h; exact ⟨c.cursor.list_step m, hrange.step m⟩
        | merge m' => exact Merge.Stands.step h m
        | concat c => exact Concat.Stands.step ih h m
        | filtered f => exact Filtered.Stands.step ih h m
      · intro it l h
        rw [items_of_standsTo h]
        exact it.length_bound_le_span

section Moving

variable {it : Iter σ} {l : ListCursor}

/-- **Every step of an iterator is the step of a list cursor.** -/
theorem Stands.step (h : it.Stands l) (m : Step) : (it.step m).Stands (l.step m) :=
  stands_of_standsTo ((follows_walkTo it.depth).step h m)

theorem Stands.isValid (h : it.Stands l) : it.isValid = l.isValid :=
  (follows_walkTo it.depth).isValid h

theorem Stands.inRange (h : it.Stands l) : l.InRange := (follows_walkTo it.depth).inRange h

theorem Stands.get (h : it.Stands l) : it.get = l.get := by
  rw [Iter.get, h.isValid, Iter.element?, walk, (follows_walkTo it.depth).element? h,
    h.inRange.isValid_eq, ListCursor.get]
  cases l.element? <;> rfl

theorem Stands.foldl_step (h : it.Stands l) (ms : List Step) :
    (ms.foldl (fun it m => it.step m) it).Stands (ms.foldl (fun l m => l.step m) l) :=
  List.foldl_rel h fun m _ _ _ hs => hs.step m

/-- **Collecting from the first element gives everything that is bound.** -/
theorem Stands.rest_eq (h : it.Stands (l.step .first)) : it.rest.1 = l.items := by
  -- the limit of `rest` is the span of the walk
  have hspan : (walkTo it.depth).span it = it.span := by
    rcases it with c | c | m | ⟨subs, comparator, kind, current⟩ | ⟨base, accepts⟩ <;> rfl
  rw [rest, ← hspan]
  exact (follows_walkTo it.depth).collect_first h

end Moving

/-! ### What moves leave alone -/

/-- Merges of cursors that are bound to the same are the same once they stand nowhere. -/
theorem still_merge (f : σ → Snapshot → Snapshot) (m : Merge σ) :
    still f (merge m) = merge ⟨(m.subs.map SortedCursor.binding).map fun b =>
      ⟨b.1, b.2.1, ⟨f b.1 b.2.2, none⟩⟩, m.comparator, none, true⟩ := by
  rw [List.map_map]
  rfl

theorem still_concat (f : σ → Snapshot → Snapshot) (c : Concat (Iter σ)) :
    still f (concat c) = concat ⟨c.subs.map (still f), c.comparator, c.kind, none⟩ := by
  obtain ⟨subs, comparator, kind, current⟩ := c
  rw [still, stillAll_eq]

theorem map_eq_of_forall₂ {α β : Type} {g : α → β} {l l' : List α}
    (h : List.Forall₂ (fun a b => g b = g a) l l') : l'.map g = l.map g := by
  induction h with
  | nil => rfl
  | cons hab _ ih => rw [List.map_cons, List.map_cons, hab, ih]

theorem still_concat_congr {f : σ → Snapshot → Snapshot} {c c' : Concat (Iter σ)}
    (hsubs : List.Forall₂ (fun s t => still f t = still f s) c.subs c'.subs)
    (hkeys : c'.comparator = c.comparator ∧ c'.kind = c.kind) :
    still f (concat c') = still f (concat c) := by
  rw [still_concat, still_concat, map_eq_of_forall₂ hsubs, hkeys.1, hkeys.2]

/-- **Steps change positions only.** -/
theorem preserves_walkTo (f : σ → Snapshot → Snapshot) (d : Nat) :
    (walkTo d).Preserves fun s t : Iter σ => still f t = still f s := by
  induction d with
  | zero => exact ⟨fun _ => rfl, fun h _ => h⟩
  | succ d ih =>
      refine ⟨fun _ => rfl, fun {s t} h m => Eq.trans ?_ h⟩
      cases t with
      | sorted c =>
          show sorted ⟨_, _, ⟨f c.source (c.step m).cursor.view, none⟩⟩ = _
          rw [SortedCursor.view_step]
          rfl
      | bag c =>
          obtain ⟨source, view, position⟩ := c
          cases m <;> cases position <;> rfl
      | merge m' =>
          show still f (merge (m'.step m)) = _
          rw [still_merge, still_merge, (m'.binding_step m).1, (m'.binding_step m).2]
      | concat c =>
          exact still_concat_congr (Concat.forall₂_step ih (List.forall₂_same.mpr fun _ _ => rfl) m)
            (Concat.comparator_step _ m c)
      | filtered g =>
          exact congrArg (fun base => filtered ⟨base, g.accepts⟩)
            (Filtered.preserved_skip ih (ih.step rfl m) _ _)

@[simp] theorem still_step (f : σ → Snapshot → Snapshot) (m : Step) (it : Iter σ) :
    still f (it.step m) = still f it :=
  (preserves_walkTo f it.depth).step rfl m

mutual

/-- Iterators that are the same once they stand nowhere have the same leaves. -/
theorem leaves_still (f : σ → Snapshot → Snapshot) (it : Iter σ) :
    (still f it).leaves = it.leaves.map fun l => (l.1, f l.1 l.2) := by
  cases it with
  | sorted c => rfl
  | bag c => rfl
  | merge m =>
      rw [still, leaves, leaves]
      simp [Function.comp_def]
  | concat c =>
      obtain ⟨subs, comparator, kind, current⟩ := c
      exact leavesAll_still f subs
  | filtered g =>
      obtain ⟨base, accepts⟩ := g
      exact leaves_still f base

theorem leavesAll_still (f : σ → Snapshot → Snapshot) (subs : List (Iter σ)) :
    leavesAll (stillAll f subs) = (leavesAll subs).map fun l => (l.1, f l.1 l.2) := by
  cases subs with
  | nil => rfl
  | cons it rest =>
      rw [stillAll, leavesAll, leavesAll, List.map_append, leaves_still, leavesAll_still]

end

theorem leaves_eq_of_still {it it' : Iter σ}
    (h : still (fun _ v => v) it' = still (fun _ v => v) it) : it'.leaves = it.leaves := by
  have hleaves := congrArg leaves h
  rw [leaves_still, leaves_still] at hleaves
  simpa using hleaves

/-- Steps bind no leaf anew. -/
@[simp] theorem leaves_step (m : Step) (it : Iter σ) : (it.step m).leaves = it.leaves :=
  leaves_eq_of_still (still_step _ m it)

section Rebinding

variable {live : σ → Snapshot}

theorem sound_rebound_of_mem {subs : List (Iter σ)}
    (h : SoundAll (stillAll (fun a _ => live a) subs)) {it : Iter σ} (hit : it ∈ subs) :
    (it.rebound live).Sound := by
  rw [stillAll_eq, soundAll_iff] at h
  exact h _ (List.mem_map_of_mem hit)

theorem boundAll_rebound (live : σ → Snapshot) (subs : List (Iter σ)) :
    boundAll (stillAll (fun a _ => live a) subs) =
      subs.flatMap fun it => (it.rebound live).bound := by
  rw [stillAll_eq, boundAll_eq, List.flatMap_map]
  rfl

/-- **Rebinding to an end leads to that end of the present contents.** -/
theorem standsTo_rebindTo {r : Rebind} {m : Step}
    (hr : (r = .first ∧ m = .first) ∨ (r = .last ∧ m = .last)) {d : Nat} {it : Iter σ}
    (hd : it.depth ≤ d) (hs : (it.rebound live).Sound) :
    standsTo d (rebindTo live d r it) (ListCursor.step m ⟨(it.rebound live).bound, none⟩) := by
  induction d generalizing it with
  | zero =>
      rcases it with c | c | m | ⟨subs, comparator, kind, current⟩ | ⟨base, accepts⟩ <;> cases hd
  | succ d ih =>
      cases it with
      | sorted c =>
          rcases hr with ⟨rfl, rfl⟩ | ⟨rfl, rfl⟩
          · exact ⟨rfl, ListCursor.inRange_seek _ _⟩
          · exact ⟨rfl, ListCursor.inRange_seekBack (Nat.le_refl _)⟩
      | bag c =>
          rcases hr with ⟨rfl, rfl⟩ | ⟨rfl, rfl⟩
          · exact ⟨rfl, ListCursor.inRange_seek _ _⟩
          · exact ⟨rfl, ListCursor.inRange_seekBack (Nat.le_refl _)⟩
      | merge m' =>
          have hstands := Merge.stands_rebind live m' hs r
          rcases hr with ⟨rfl, rfl⟩ | ⟨rfl, rfl⟩ <;> exact hstands
      | concat c =>
          obtain ⟨subs, comparator, kind, current⟩ := c
          have hsubs : ∀ s ∈ subs, standsTo d (rebindTo live d r s)
              (ListCursor.step m ⟨(s.rebound live).bound, none⟩) := fun s hsm =>
            ih (Nat.le_trans (depth_le_depthAll hsm) (Nat.le_of_succ_le_succ hd))
              (sound_rebound_of_mem hs hsm)
          show Concat.Stands _ _ (ListCursor.step m ⟨boundAll (stillAll _ subs), none⟩)
          rw [boundAll_rebound]
          rcases hr with ⟨rfl, rfl⟩ | ⟨rfl, rfl⟩
          · exact Concat.stands_rebind_first (follows_walkTo d) (c := ⟨subs, _, _, _⟩) hsubs
          · exact Concat.stands_rebind_last (follows_walkTo d) (c := ⟨subs, _, _, _⟩) hsubs
      | filtered f =>
          obtain ⟨base, accepts⟩ := f
          have hbase := ih (Nat.le_of_succ_le_succ hd) hs
          rcases hr with ⟨rfl, rfl⟩ | ⟨rfl, rfl⟩
          · exact Filtered.stands_rebind_first (follows_walkTo d) (f := ⟨base, accepts⟩) hbase
          · exact Filtered.stands_rebind_last (follows_walkTo d) (f := ⟨base, accepts⟩) hbase

/-- Rebinding to a target leads to some place in what is bound then. -/
theorem exists_standsTo_rebindTo (target : FeatureStructure) {d : Nat} {it : Iter σ}
    {l : ListCursor} (h : standsTo d it l) (hs : (it.rebound live).Sound) :
    ∃ l', standsTo d (rebindTo live d (.toward target) it) l' := by
  induction d generalizing it l with
  | zero => exact h.elim
  | succ d ih =>
      cases it with
      | sorted c => exact ⟨_, rfl, ListCursor.inRange_seek ⟨_, none⟩ _⟩
      | bag c => exact ⟨_, rfl, ListCursor.inRange_seek ⟨_, none⟩ _⟩
      | merge m => exact ⟨_, Merge.stands_rebind live m hs (.toward target)⟩
      | concat c =>
          obtain ⟨subs, comparator, kind, current⟩ := c
          obtain ⟨cs, hsubs, -⟩ := h
          have hold : ∀ s ∈ subs, ∃ l, standsTo d s l := Concat.exists_of_forall₂ hsubs
          refine Concat.exists_stands_rebind (follows_walkTo d) (c := ⟨subs, _, _, _⟩) target hold
            fun s hsm => ?_
          obtain ⟨l, hl⟩ := hold s hsm
          exact ih hl (sound_rebound_of_mem hs hsm)
      | filtered f =>
          obtain ⟨base, accepts⟩ := f
          obtain ⟨b, hb, -⟩ := h
          obtain ⟨b', hb'⟩ := ih hb hs
          exact Filtered.exists_stands_rebind (follows_walkTo d) (f := ⟨base, accepts⟩) target hb'

variable {it : Iter σ} {l : ListCursor}

theorem stands_rebind_first (hs : (it.rebound live).Sound) :
    (it.rebind live .first).Stands (ListCursor.step .first ⟨(it.rebound live).bound, none⟩) :=
  stands_of_standsTo (standsTo_rebindTo (.inl ⟨rfl, rfl⟩) (Nat.le_refl _) hs)

theorem stands_rebind_last (hs : (it.rebound live).Sound) :
    (it.rebind live .last).Stands (ListCursor.step .last ⟨(it.rebound live).bound, none⟩) :=
  stands_of_standsTo (standsTo_rebindTo (.inr ⟨rfl, rfl⟩) (Nat.le_refl _) hs)

/-- An iterator that stands somewhere does so after any rebinding. -/
theorem Stands.exists_rebind (h : it.Stands l) (hs : (it.rebound live).Sound) (r : Rebind) :
    ∃ l', (it.rebind live r).Stands l' := by
  cases r with
  | first => exact ⟨_, stands_rebind_first hs⟩
  | last => exact ⟨_, stands_rebind_last hs⟩
  | toward target =>
      obtain ⟨l', hl'⟩ := exists_standsTo_rebindTo target h hs
      exact ⟨l', stands_of_standsTo hl'⟩

/-- **Collecting an iterator gives the present contents of its leaves**, put together as the tree of
cursors says. -/
theorem collect_eq (hs : (it.rebound live).Sound) : (it.collect live).1 = (it.rebound live).bound :=
  Stands.rest_eq (stands_rebind_first hs)

end Rebinding

/-! ### Building -/

section Building

variable {it : Iter σ} {l : ListCursor} {subs : List (Iter σ)}

/-- Iterators one after another stand at the first of all elements, wherever they stood before. -/
theorem stands_ofList (h : ∀ s ∈ subs, ∃ l, s.Stands l) (comparator : Comparator)
    (kind : IndexKind) :
    (ofList subs comparator kind).Stands (ListCursor.step .first ⟨boundAll subs, none⟩) := by
  -- where the iterators stood does not matter, but that they stood somewhere does
  obtain ⟨cs, hcs⟩ := Concat.exists_forall₂ (R := standsTo (depthAll subs)) fun s hs => by
    obtain ⟨l, hl⟩ := h s hs
    exact ⟨l, standsTo_mono (depth_le_depthAll hs) hl⟩
  have hstands : standsTo (depthAll subs + 1) (ofList subs comparator kind)
      (ListCursor.seek ⟨Concat.joined cs, none⟩ 0) :=
    Concat.stands_firstFrom (follows_walkTo _) (c := ⟨subs, comparator, kind, none⟩) hcs
      (Nat.zero_le _)
  have hitems : Concat.joined cs = boundAll subs := by
    rw [boundAll_eq]
    exact joined_eq_flatMap (hcs.imp fun _ _ hs => items_of_standsTo hs)
  rw [hitems] at hstands
  exact stands_of_standsTo hstands

@[simp] theorem still_filter (f : σ → Snapshot → Snapshot) (it : Iter σ)
    (accepts : FeatureStructure → Bool) :
    still f (it.filter accepts) = filtered ⟨still f it, accepts⟩ :=
  congrArg (fun base => filtered ⟨base, accepts⟩)
    (Filtered.preserved_skip (preserves_walkTo f it.depth) rfl _ _)

@[simp] theorem leaves_filter (it : Iter σ) (accepts : FeatureStructure → Bool) :
    (it.filter accepts).leaves = it.leaves := by
  show (it.filter accepts).leaves = (filtered ⟨it, accepts⟩).leaves
  exact leaves_eq_of_still (still_filter _ it accepts)

theorem still_ofList (f : σ → Snapshot → Snapshot) (subs : List (Iter σ)) (comparator : Comparator)
    (kind : IndexKind) : still f (ofList subs comparator kind) =
      concat ⟨subs.map (still f), comparator, kind, none⟩ := by
  rw [← still_concat f ⟨subs, comparator, kind, none⟩]
  exact still_concat_congr (Concat.forall₂_firstFrom (preserves_walkTo f _)
    (c := ⟨subs, comparator, kind, none⟩) (List.forall₂_same.mpr fun _ _ => rfl) 0) ⟨rfl, rfl⟩

theorem leaves_ofList (subs : List (Iter σ)) (comparator : Comparator) (kind : IndexKind) :
    (ofList subs comparator kind).leaves = subs.flatMap leaves := by
  have hstill : still (fun _ v => v) (ofList subs comparator kind) =
      still (fun _ v => v) (concat ⟨subs, comparator, kind, none⟩) :=
    (still_ofList _ subs comparator kind).trans (still_concat _ ⟨subs, comparator, kind, none⟩).symm
  rw [← leavesAll_eq]
  exact leaves_eq_of_still hstill

end Building

/-! ### Comparing -/

section Comparing

variable {it other : Iter σ} {c d : Comparator}

theorem toOrdered_eq_ok (hc : it.comparator? = some c) : it.toOrdered = .ok ⟨it, c, hc⟩ := by
  unfold toOrdered
  split
  next c' hc' =>
    cases hc.symm.trans hc'
    rfl
  next hnone => cases hc.symm.trans hnone

theorem toOrdered_eq_error (hnone : it.comparator? = none) :
    it.toOrdered = .error (.notComparable .unordered) := by
  unfold toOrdered
  split
  next hc => cases hnone.symm.trans hc
  next => rfl

/-- Iterators over sorted data compare with their orders. -/
theorem compareTo_eq (hc : it.comparator? = some c) (hd : other.comparator? = some d) :
    it.compareTo other = OrderedIter.compareTo ⟨it, c, hc⟩ ⟨other, d, hd⟩ := by
  rw [compareTo, toOrdered_eq_ok hc, toOrdered_eq_ok hd]
  rfl

end Comparing
end FeatureIndex.Iter

namespace FeatureIndex.OrderedIter

theorem compareTo_eq_of_ordersLike {σ : Type} {a b : OrderedIter σ}
    (h : a.comparator.ordersLike b.comparator = true) : a.compareTo b =
      (do let x ← a.iter.get; let y ← b.iter.get; return a.comparator.compareFully x y) := by
  rw [compareTo, h]
  rfl

end FeatureIndex.OrderedIter
