import FeatureIndex.Proofs.Settled

/-!
# Iterators in line

A merge goes on rightly from where it stands if all its cursors stand around its current element.
A merge that is put together takes its cursors as they are, and is not in line where one of them
has passed what the merge has still to come to. Whatever moves to an end is in line from then on,
whatever it is made of (`Ready.inLine_step_end`).

Of a concatenation only the current iterator has to be in line, since the others are entered at an
end. An iterator in line that has come about, and can tell apart what it is bound to, walks a list
(`InLine.exists_walks`). `inLineTo` is the relation behind this, which all steps keep.
-/

namespace FeatureIndex

namespace Merge

variable {σ : Type} {m : Merge σ} {l : ListCursor}

/-- All cursors of the merge stand around its current element. -/
def InLine (m : Merge σ) : Prop := ∀ x, m.element? = some x → m.Around x

theorem Stands.inLine (h : m.Stands l) : m.InLine := by
  intro x hx
  rcases h.position with ⟨hnone, -⟩ | ⟨i, s, p, y, hi, hs, hy, -, -, haround⟩
  · rw [Merge.element?, hnone] at hx
    cases hx
  · rw [Merge.element?, hi, Option.bind_some, hs] at hx
    cases hy.symm.trans hx
    exact haround

/-- A merge in line stands somewhere in the union. -/
theorem Placed.exists_stands (h : m.Placed) (hm : m.Sound) (hline : m.InLine) :
    ∃ l, m.Stands l := by
  cases hi : m.current with
  | none => exact ⟨⟨m.union, none⟩, hm, rfl, .inl ⟨hi, rfl⟩⟩
  | some i =>
      obtain ⟨s, x, hs, hx⟩ := h.current i hi
      have hxm : m.element? = some x := by
        rw [element?, hi, Option.bind_some, hs]
        exact hx
      have hmem : x ∈ m.union :=
        mem_union.mpr ⟨_, List.mem_map_of_mem (List.mem_of_getElem? hs), Cursor.mem_of_element? hx⟩
      obtain ⟨p, hp⟩ := List.getElem?_of_mem hmem
      exact ⟨⟨m.union, some p⟩, hm, rfl, .inr ⟨i, s, p, x, hi, hs, hx, rfl, hp, hline x hxm⟩⟩

end Merge

namespace Iter

variable {σ : Type} {it : Iter σ} {l : ListCursor} {d : Nat} {live : σ → Snapshot}

/-- The merge that gives the current element of the iterator, if there is one, is in line. -/
inductive InLine : Iter σ → Prop
  | sorted (c : SortedCursor σ) : InLine (sorted c)
  | bag (c : BagCursor σ) : InLine (bag c)
  | merge {m : Merge σ} (h : m.InLine) : InLine (merge m)
  | concat {c : Concat (Iter σ)}
      (h : ∀ i s, c.current = some i → c.subs[i]? = some s → InLine s) : InLine (concat c)
  | filtered {f : Filtered (Iter σ)} (h : InLine f.base) : InLine (filtered f)

/-! ### Iterators that are ready -/

/-- An iterator that stands as iterators do when they have come about, with merges that can tell
apart what they are bound to. -/
structure Ready (it : Iter σ) : Prop where
  placed : it.Placed
  settled : it.Settled
  sound : it.Sound

/-- Ready iterators within reach of a walk. -/
def readyTo (d : Nat) (it : Iter σ) : Prop := settledTo d it ∧ it.Sound

theorem Ready.to_self (h : it.Ready) : readyTo it.depth it :=
  ⟨h.placed.settledTo h.settled, h.sound⟩

theorem sound_walkTo_step (d : Nat) (m : Step) (it : Iter σ) :
    ((walkTo d).step m it).Sound ↔ it.Sound := by
  rw [← sound_still, (preserves_walkTo _ d).step rfl m, sound_still]

theorem readyTo_step (h : readyTo d it) (m : Step) : readyTo d ((walkTo d).step m it) :=
  ⟨(ends_walkTo_settled d).step h.1 m, (sound_walkTo_step d m it).mpr h.2⟩

theorem readyTo_concat {c : Concat (Iter σ)} (h : readyTo (d + 1) (concat c)) :
    ∀ s ∈ c.subs, readyTo d s :=
  fun s hs => ⟨(settledTo_concat.mp h.1).subs s hs, sound_concat.mp h.2 s hs⟩

theorem readyTo_filtered {f : Filtered (Iter σ)} (h : readyTo (d + 1) (filtered f)) :
    readyTo d f.base := by
  have hbase := (settledTo_filtered.mp h.1).1
  obtain ⟨base, accepts⟩ := f
  exact ⟨hbase, h.2⟩

/-! ### Standing in line -/

/-- A ready iterator, wherever it stands, and a list cursor over what it is bound to. -/
def waitsTo (d : Nat) (it : Iter σ) (l : ListCursor) : Prop := readyTo d it ∧ l.items = it.bound

/-- Ready iterators up to a depth and the list cursors that they stand with. -/
def inLineTo : Nat → Iter σ → ListCursor → Prop
  | 0, _, _ => False
  | d + 1, it, l => readyTo (d + 1) it ∧
    match it with
    | sorted c => c.cursor.list = l
    | bag c => c.cursor.list = l
    | merge m => m.Stands l
    | concat c => c.StandsAmong (waitsTo d) (inLineTo d) l
    | filtered f => f.Stands (inLineTo d) l

theorem readyTo_of_inLineTo (h : inLineTo d it l) : readyTo d it := by
  cases d with
  | zero => exact h.elim
  | succ d => exact h.1

theorem items_of_inLineTo (h : inLineTo d it l) : l.items = it.bound := by
  induction d generalizing it l with
  | zero => exact h.elim
  | succ d ih =>
      cases it with
      | sorted c => obtain ⟨-, rfl⟩ := h; rfl
      | bag c => obtain ⟨-, rfl⟩ := h; rfl
      | merge m => exact Merge.Stands.items h.2
      | concat c =>
          obtain ⟨subs, comparator, kind, current⟩ := c
          obtain ⟨-, cs, hsubs, hitems, -⟩ := h
          rw [hitems, bound, boundAll_eq]
          exact joined_eq_flatMap (hsubs.imp fun _ _ hs => hs.2)
      | filtered f =>
          obtain ⟨base, accepts⟩ := f
          obtain ⟨-, b, hb, hitems, -⟩ := h
          rw [hitems, bound, ih hb]

theorem follows_inLineTo_succ (hw : (walkTo d).Follows (inLineTo (σ := σ) d))
    (he : Concat.Enters (walkTo d) (waitsTo d) (inLineTo (σ := σ) d)) :
    (walkTo (d + 1)).Follows (inLineTo (σ := σ) (d + 1)) := by
  refine ⟨?_, ?_, ?_, ?_, ?_⟩
  · rintro it l ⟨hready, h⟩
    cases it with
    | sorted c => obtain rfl := h; exact hready.1.1.2
    | bag c => obtain rfl := h; exact hready.1.1.2
    | merge m => exact Merge.Stands.inRange h
    | concat c => exact Concat.StandsAmong.inRange hw h
    | filtered f => exact Filtered.Stands.inRange h
  · rintro it l ⟨hready, h⟩
    cases it with
    | sorted c => obtain rfl := h; exact Cursor.isValid_eq hready.1.1.2
    | bag c => obtain rfl := h; exact Cursor.isValid_eq hready.1.1.2
    | merge m => exact Merge.Stands.isValid h
    | concat c => exact Concat.StandsAmong.isValid h
    | filtered f => exact Filtered.Stands.isValid hw h
  · rintro it l ⟨-, h⟩
    cases it with
    | sorted c => obtain rfl := h; rfl
    | bag c => obtain rfl := h; rfl
    | merge m => exact Merge.Stands.element? h
    | concat c => exact Concat.StandsAmong.element? hw h
    | filtered f => exact Filtered.Stands.element? hw h
  · rintro it l ⟨hready, h⟩ m
    refine ⟨readyTo_step hready m, ?_⟩
    cases it with
    | sorted c => obtain rfl := h; exact c.cursor.list_step m
    | bag c => obtain rfl := h; exact c.cursor.list_step m
    | merge m' => exact Merge.Stands.step h m
    | concat c => exact Concat.StandsAmong.step hw he h m
    | filtered f => exact Filtered.Stands.step hw h m
  · intro it l h
    rw [items_of_inLineTo h]
    exact it.length_bound_le_span

/-- Ready iterators wait, each with the list that it is bound to. -/
theorem forall₂_waitsTo {subs : List (Iter σ)} (h : ∀ s ∈ subs, readyTo d s) :
    List.Forall₂ (waitsTo d) subs (subs.map fun s => ⟨s.bound, none⟩) := by
  rw [List.forall₂_map_right_iff]
  exact List.forall₂_same.mpr fun s hs => ⟨h s hs, rfl⟩

/-- **A move to an end brings a ready iterator in line**, one level above iterators of which this
is known. -/
theorem inLineTo_step_end (hw : (walkTo d).Follows (inLineTo (σ := σ) d))
    (he : Concat.Enters (walkTo d) (waitsTo d) (inLineTo (σ := σ) d)) (h : readyTo (d + 1) it)
    {m : Step} (hm : m = .first ∨ m = .last) :
    inLineTo (d + 1) ((walkTo (d + 1)).step m it) (ListCursor.step m ⟨it.bound, none⟩) := by
  refine ⟨readyTo_step h m, ?_⟩
  cases it with
  | sorted c => rcases hm with rfl | rfl <;> rfl
  | bag c => rcases hm with rfl | rfl <;> rfl
  | merge m' =>
      have hsound : m'.Sound := h.2
      rcases hm with rfl | rfl
      · exact hsound.stands_first
      · exact hsound.stands_last
  | concat c =>
      have hsubs := forall₂_waitsTo (readyTo_concat h)
      have hnone : Concat.StandsAmong (waitsTo d) (inLineTo d) { c with current := none }
          ⟨(concat c).bound, none⟩ := by
        refine ⟨_, hsubs, ?_, .inl ⟨rfl, rfl⟩⟩
        rw [joined_eq_flatMap (hsubs.imp fun _ _ hs => hs.2), ← boundAll_eq]
        rfl
      have hstep := hnone.step hw he m
      rcases hm with rfl | rfl
      · exact hstep
      · exact hstep
  | filtered f =>
      obtain ⟨base, accepts⟩ := f
      have hwaits : waitsTo d base ⟨base.bound, none⟩ := ⟨readyTo_filtered h, rfl⟩
      exact Filtered.stands_step_end hw (f := ⟨base, accepts⟩) hm (he.enter hwaits hm) none

/-- **Iterators in line follow list cursors**, and others come to do so by a move to an end. -/
theorem walkTo_inLineTo (d : Nat) : (walkTo d).Follows (inLineTo (σ := σ) d) ∧
    Concat.Enters (walkTo d) (waitsTo d) (inLineTo (σ := σ) d) := by
  induction d with
  | zero =>
      refine ⟨⟨False.elim, False.elim, False.elim, fun h => h.elim, False.elim⟩, False.elim, ?_⟩
      exact fun h => absurd h.1.1.1 not_placedTo_zero
  | succ d ih =>
      obtain ⟨hw, he⟩ := ih
      refine ⟨follows_inLineTo_succ hw he, fun h => ⟨h.1, items_of_inLineTo h⟩, ?_⟩
      rintro it ⟨items, position⟩ ⟨hready, rfl⟩ m hm
      have hstep := inLineTo_step_end hw he hready hm
      rcases hm with rfl | rfl
      · exact hstep
      · exact hstep

theorem follows_inLineTo (d : Nat) : (walkTo d).Follows (inLineTo (σ := σ) d) :=
  (walkTo_inLineTo d).1

theorem enters_inLineTo (d : Nat) : Concat.Enters (walkTo d) (waitsTo d) (inLineTo (σ := σ) d) :=
  (walkTo_inLineTo d).2

/-! ### What is in line stands somewhere -/

theorem inLine_of_standsAmong {E R : Iter σ → ListCursor → Prop} {c : Concat (Iter σ)}
    (h : c.StandsAmong E R l) (hR : ∀ s b, R s b → s.InLine) : (concat c).InLine := by
  obtain ⟨cs, -, -, ⟨hnone, -⟩ | ⟨i, s, b, p, hi, hs, -, hb, -⟩⟩ := h
  · exact .concat fun i s hi => absurd (hnone.symm.trans hi) nofun
  · refine .concat fun j t hj ht => ?_
    cases hi.symm.trans hj
    cases hs.symm.trans ht
    exact hR s b hb

theorem inLine_of_inLineTo (h : inLineTo d it l) : it.InLine := by
  induction d generalizing it l with
  | zero => exact h.elim
  | succ d ih =>
      cases it with
      | sorted c => exact .sorted c
      | bag c => exact .bag c
      | merge m => exact .merge (Merge.Stands.inLine h.2)
      | concat c => exact inLine_of_standsAmong h.2 fun _ _ => ih
      | filtered f =>
          obtain ⟨-, b, hb, -⟩ := h
          exact .filtered (ih hb)

theorem inLine_of_standsTo (h : standsTo d it l) : it.InLine := by
  induction d generalizing it l with
  | zero => exact h.elim
  | succ d ih =>
      cases it with
      | sorted c => exact .sorted c
      | bag c => exact .bag c
      | merge m => exact .merge (Merge.Stands.inLine h)
      | concat c => exact inLine_of_standsAmong (Concat.standsAmong_self.mpr h) fun _ _ => ih
      | filtered f =>
          obtain ⟨b, hb, -⟩ := h
          exact .filtered (ih hb)

/-- An iterator all of which stands in lists is in line. -/
theorem Stands.inLine (h : it.Stands l) : it.InLine := inLine_of_standsTo h

/-- A ready iterator in line stands with some list cursor. -/
theorem InLine.exists_inLineTo (h : it.InLine) (hready : readyTo d it) : ∃ l, inLineTo d it l := by
  induction d generalizing it with
  | zero => exact absurd hready.1.1 not_placedTo_zero
  | succ d ih =>
      have hw := follows_inLineTo (σ := σ) d
      cases h with
      | sorted c => exact ⟨_, hready, rfl⟩
      | bag c => exact ⟨_, hready, rfl⟩
      | merge h =>
          obtain ⟨l, hl⟩ := Merge.Placed.exists_stands hready.1.1.2 hready.2 h
          exact ⟨l, hready, hl⟩
      | @concat c h =>
          have hsubs := readyTo_concat hready
          have hcurrent : ∀ i, c.current = some i → ∃ s b,
              c.subs[i]? = some s ∧ (walkTo d).isValid s = true ∧ inLineTo d s b := by
            intro i hi
            have hvalid := (settledTo_concat.mp hready.1).current i hi
            obtain ⟨s, hs, hv⟩ := Concat.exists_of_subValid hvalid
            obtain ⟨b, hb⟩ := ih (h i s hi hs) (hsubs s (List.mem_of_getElem? hs))
            exact ⟨s, b, hs, hv, hb⟩
          obtain ⟨l, hl⟩ :=
            Concat.exists_standsAmong hw (enters_inLineTo d) (forall₂_waitsTo hsubs) hcurrent
          exact ⟨l, hready, hl⟩
      | @filtered f h =>
          obtain ⟨b, hb⟩ := ih h (readyTo_filtered hready)
          obtain ⟨hbase, haccepts⟩ := settledTo_filtered.mp hready.1
          obtain ⟨hvalid, helement, -⟩ := inStep_walkTo_walk hbase.1.1
          -- the filter is settled, so its base stands at no rejected element
          obtain ⟨l, hl⟩ := Filtered.stands_of_accepted hw hb fun x hv hx =>
            haccepts x (get_eq_ok_iff.mpr ⟨hvalid.symm.trans hv, helement.symm.trans hx⟩)
          exact ⟨l, hready, hl⟩

theorem walks_of_inLineTo (h : inLineTo d it l) : it.Walks l :=
  walks_of_follows (follows_inLineTo d) (fun _ _ hs => (readyTo_of_inLineTo hs).1.1.1)
    (items_of_inLineTo h) h

/-! ### Moves of ready iterators -/

namespace Ready

/-- A step leaves an iterator in line. -/
theorem inLine_step (h : it.Ready) (hline : it.InLine) (m : Step) : (it.step m).InLine := by
  obtain ⟨l, hl⟩ := hline.exists_inLineTo h.to_self
  exact inLine_of_inLineTo ((follows_inLineTo it.depth).step hl m)

theorem inLine_filter (h : it.Ready) (hline : it.InLine) (accepts : FeatureStructure → Bool) :
    (it.filter accepts).InLine := by
  obtain ⟨l, hl⟩ := hline.exists_inLineTo h.to_self
  obtain ⟨b, hb, -⟩ := Filtered.stands_ofCursor (follows_inLineTo it.depth) hl accepts
  exact .filtered (inLine_of_inLineTo hb)

theorem inLine_ofList {subs : List (Iter σ)} (h : ∀ s ∈ subs, s.Ready) (comparator : Comparator)
    (kind : IndexKind) : (ofList subs comparator kind).InLine := by
  have hready : ∀ s ∈ subs, readyTo (depthAll subs) s := fun s hs =>
    ⟨⟨⟨depth_le_depthAll hs, (h s hs).placed⟩, (h s hs).settled⟩, (h s hs).sound⟩
  exact inLine_of_standsAmong (Concat.standsAmong_firstFrom (follows_inLineTo _)
    (enters_inLineTo _) (c := ⟨subs, comparator, kind, none⟩) (forall₂_waitsTo hready)
    (Nat.zero_le _)) fun _ _ => inLine_of_inLineTo

end Ready

end Iter
end FeatureIndex
