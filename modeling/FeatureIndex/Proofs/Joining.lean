import FeatureIndex.Proofs.Handed

/-!
# A concatenation walks the lists one after another

Whatever iterators are put one after another, as long as each of them walks a list, the
concatenation walks all these lists together. `Joining` runs a list cursor over them beside the
concatenation. Of the iterators only what they are bound to counts: where they stood when they were
put together does not, and neither does where the moves leave those that are not current.

A move to a target is met by the first iterator that then stands at a match (`Concat.meeting`). In
an index that is not sorted this is the first leaf that holds one, since a leaf lands where a match
would be and nowhere else in its list can there be one (`Ascending.getElem?_countP_filter`).

That iterators walk after a rebinding has not to be asked each time: `Steady` ones do, among them
all over single stores, and a concatenation of steady iterators is steady. `joining_spec` puts this
together, and says what it comes to for the concatenations that an index hands out.
-/

namespace FeatureIndex

/-! ### Moves to a target -/

namespace Concat

variable {S : Type} {w : Walk S}

/-- What a search comes to is the match in the first cursor that comes to stand at one. -/
theorem findMatch_element? (isMatch : FeatureStructure → Bool) {rebind : S → S} {subs : List S}
    (hvalid : ∀ s ∈ subs, w.isValid (rebind s) = (w.element? (rebind s)).isSome) :
    ((findMatch w rebind isMatch subs).2.bind fun i =>
        (findMatch w rebind isMatch subs).1[i]?.bind w.element?) =
      subs.findSome? (fun s => (w.element? (rebind s)).filter isMatch) ∧
    (findMatch w rebind isMatch subs).2.isSome =
      (subs.findSome? fun s => (w.element? (rebind s)).filter isMatch).isSome := by
  induction subs with
  | nil => exact ⟨rfl, rfl⟩
  | cons s rest ih =>
      obtain ⟨hs, hrest⟩ := List.forall_mem_cons.mp hvalid
      obtain ⟨helement, hsome⟩ := ih hrest
      have hmatch : (w.isValid (rebind s) && (w.element? (rebind s)).any isMatch) =
          ((w.element? (rebind s)).filter isMatch).isSome := by
        rw [hs, Option.isSome_filter]
        cases w.element? (rebind s) <;> rfl
      rw [findMatch, hmatch, List.findSome?_cons]
      cases hfilter : (w.element? (rebind s)).filter isMatch with
      | none =>
          simp only [Option.isSome_none, Bool.false_eq_true, ↓reduceIte]
          refine ⟨Eq.trans ?_ helement, Eq.trans ?_ hsome⟩ <;>
            cases (findMatch w rebind isMatch rest).2 <;> rfl
      | some x => exact ⟨(Option.filter_eq_some_iff.mp hfilter).1, rfl⟩

end Concat

namespace Iter

variable {σ : Type} {it : Iter σ} {l : ListCursor} {c : Concat (Iter σ)} {subs : List (Iter σ)}
  {live : σ → Snapshot} {admits : (σ → Snapshot) → Prop}

/-! ### Runs of a concatenation -/

/-- A concatenation after any moves, with a list cursor over the lists of its iterators. They walk
lists when they are put together and whenever they are rebound. -/
inductive Joining : Iter σ → ListCursor → Prop
  /-- Iterators are put one after another, wherever they stand. -/
  | ofList {subs : List (Iter σ)} (h : ∀ s ∈ subs, ∃ d, s.Walks d) (comparator : Comparator)
      (kind : IndexKind) : Joining (Iter.ofList subs comparator kind)
        (ListCursor.step .first ⟨subs.flatMap bound, none⟩)
  | step {it : Iter σ} {l : ListCursor} (h : Joining it l) (m : Step) :
      Joining (it.step m) (l.step m)
  /-- The iterators are rebound to their first elements. -/
  | first {c : Concat (Iter σ)} {l : ListCursor} (h : Joining (concat c) l) {live : σ → Snapshot}
      (hsubs : ∀ s ∈ c.subs, ∃ d, (s.rebind live .first).Walks d) :
      Joining ((concat c).rebind live .first) (ListCursor.step .first
        ⟨c.subs.flatMap fun s => (s.rebind live .first).bound, none⟩)
  /-- The iterators are rebound to their last elements. -/
  | last {c : Concat (Iter σ)} {l : ListCursor} (h : Joining (concat c) l) {live : σ → Snapshot}
      (hsubs : ∀ s ∈ c.subs, ∃ d, (s.rebind live .last).Walks d) :
      Joining ((concat c).rebind live .last) (ListCursor.step .last
        ⟨c.subs.flatMap fun s => (s.rebind live .last).bound, none⟩)
  /-- The iterators are rebound to a target, up to the first one that stands at a match. -/
  | toward {c : Concat (Iter σ)} {l : ListCursor} (h : Joining (concat c) l) {live : σ → Snapshot}
      {target : FeatureStructure} {ds : List ListCursor}
      (hsubs : List.Forall₂ (fun s d => (s.rebind live (.toward target)).Walks d) c.subs ds) :
      Joining ((concat c).rebind live (.toward target))
        ⟨((concat c).rebind live (.toward target)).bound, Concat.meeting (c.isMatch target) ds⟩

/-- No move takes a concatenation for another kind of iterator. -/
theorem Joining.exists_concat (h : Joining it l) : ∃ c, it = concat c := by
  induction h with
  | ofList h comparator kind => exact ⟨_, rfl⟩
  | step h m ih =>
      obtain ⟨⟨subs, comparator, kind, current⟩, rfl⟩ := ih
      exact ⟨_, rfl⟩
  | @first c | @last c | @toward c => exact ⟨_, rebind_concat _ _ c⟩

/-- Iterators that walk after a move walk lists that make one list. -/
theorem exists_walksTo {d : Nat} {f : Iter σ → Iter σ} (hdepth : ∀ s ∈ subs, (f s).depth ≤ d)
    (h : ∀ s ∈ subs, ∃ l, (f s).Walks l) :
    ∃ cs, List.Forall₂ (walksTo d) (subs.map f) cs ∧
      Concat.joined cs = subs.flatMap fun s => (f s).bound := by
  have hwalks : ∀ s ∈ subs.map f, ∃ l, walksTo d s l := by
    rw [List.forall_mem_map]
    intro s hs
    obtain ⟨l, hl⟩ := h s hs
    exact ⟨l, hdepth s hs, hl⟩
  obtain ⟨cs, hcs⟩ := Concat.exists_forall₂ hwalks
  refine ⟨cs, hcs, ?_⟩
  rw [joined_eq_flatMap (hcs.imp fun _ _ hs => hs.2.items), List.flatMap_map]

/-- **A concatenation stands where the list cursor stands**, over iterators that walk. -/
theorem Joining.stands (h : Joining it l) : ∃ d, standsOver d it l := by
  induction h with
  | @ofList subs h comparator kind =>
      obtain ⟨cs, hcs, hjoined⟩ := exists_walksTo (f := id) (fun _ => depth_le_depthAll) h
      rw [List.map_id] at hcs
      refine ⟨depthAll subs, ?_⟩
      have hstands := Concat.stands_firstFrom (follows_walksTo _)
        (c := ⟨subs, comparator, kind, none⟩) hcs (Nat.zero_le _)
      rw [hjoined] at hstands
      exact hstands
  | step _ m ih =>
      obtain ⟨d, hd⟩ := ih
      exact ⟨d, standsOver_step hd m⟩
  | @first c _ _ live hsubs _ =>
      obtain ⟨cs, hcs, hjoined⟩ := exists_walksTo (f := fun s => s.rebind live .first)
        (fun s hs => (depth_rebindTo ..).trans_le (depth_le_depthAll hs)) hsubs
      refine ⟨depthAll c.subs, ?_⟩
      have hstands := Concat.stands_firstFrom (follows_walksTo _)
        (c := { c with subs := c.subs.map fun s => s.rebind live .first }) hcs (Nat.zero_le _)
      rw [hjoined] at hstands
      rw [rebind_concat]
      exact hstands
  | @last c _ _ live hsubs _ =>
      obtain ⟨cs, hcs, hjoined⟩ := exists_walksTo (f := fun s => s.rebind live .last)
        (fun s hs => (depth_rebindTo ..).trans_le (depth_le_depthAll hs)) hsubs
      refine ⟨depthAll c.subs, ?_⟩
      have hlength : c.subs.length = cs.length := by rw [← hcs.length_eq, List.length_map]
      have hstands := Concat.stands_lastBefore (follows_walksTo _)
        (c := { c with subs := c.subs.map fun s => s.rebind live .last }) hcs c.subs.length
      rw [hlength, Concat.offset_length, hjoined, ← hlength] at hstands
      rw [rebind_concat]
      exact hstands
  | @toward c _ _ live target ds hsubs ih =>
      -- the iterators behind the match walk as they did before
      obtain ⟨d, cs, hold, -⟩ := ih
      have hreach := (List.forall₂_and_left c.subs cs).mpr ⟨fun _ => depth_le_depthAll, hold⟩
      have hreach' := (List.forall₂_and_left c.subs ds).mpr ⟨fun _ => depth_le_depthAll, hsubs⟩
      obtain ⟨items, hstands⟩ := Concat.stands_rebind_toward (follows_walksTo (depthAll c.subs))
        (fun r s => s.rebind live r) target
        (hreach.imp fun _ _ hs => ⟨hs.1, hs.2.2⟩)
        (hreach'.imp fun _ _ hs => ⟨(depth_rebindTo ..).trans_le hs.1, hs.2⟩)
      have hover : standsOver (depthAll c.subs) ((concat c).rebind live (.toward target))
          ⟨items, Concat.meeting (c.isMatch target) ds⟩ := by
        rw [rebind_concat]
        exact hstands
      obtain rfl : items = _ := items_of_standsOver hover
      exact ⟨_, hover⟩

/-- **A concatenation walks the lists of its iterators**, whatever moves it has made. -/
theorem Joining.walks (h : Joining it l) : it.Walks l := by
  obtain ⟨d, hd⟩ := h.stands
  exact walks_of_standsOver hd

/-- **A concatenation that moves to a target** stands at the match of the first iterator that comes
to stand at one. -/
theorem rebind_toward (c : Concat (Iter σ)) {target : FeatureStructure}
    (hsubs : ∀ s ∈ c.subs, ∃ d, (s.rebind live (.toward target)).Walks d) :
    let found := (concat c).rebind live (.toward target)
    let first := c.subs.findSome? fun s =>
      (s.rebind live (.toward target)).element?.filter (c.isMatch target)
    found.element? = first ∧ found.isValid = first.isSome := by
  intro found first
  have hreach : ∀ s ∈ c.subs, (s.rebind live (.toward target)).depth ≤ depthAll c.subs :=
    fun s hs => (depth_rebindTo ..).trans_le (depth_le_depthAll hs)
  have hvalid : ∀ s ∈ c.subs, (walkTo (depthAll c.subs)).isValid (s.rebind live (.toward target)) =
      ((walkTo (depthAll c.subs)).element? (s.rebind live (.toward target))).isSome := by
    intro s hs
    obtain ⟨d, hd⟩ := hsubs s hs
    obtain ⟨hvalid, helement, -⟩ := inStep_walkTo_walk (hreach s hs)
    rw [hvalid, helement, hd.isValid, hd.element?, hd.inRange.isValid_eq]
  have hfirst : first = c.subs.findSome? fun s =>
      ((walkTo (depthAll c.subs)).element? (s.rebind live (.toward target))).filter
        (c.isMatch target) :=
    findSome?_congr (List.forall₂_same.mpr fun s hs => by
      rw [(inStep_walkTo_walk (hreach s hs)).2.1])
  obtain ⟨helement, hsome⟩ := Concat.findMatch_element? (c.isMatch target) hvalid
  have hdepth : found.depth ≤ depthAll c.subs + 1 := by
    obtain ⟨subs, comparator, kind, current⟩ := c
    exact Nat.le_of_eq (depth_rebindTo ..)
  obtain ⟨hfound, hfound', -⟩ := inStep_walkTo_walk hdepth
  rw [← hfound, ← hfound', hfirst]
  simp only [found, rebind_concat]
  exact ⟨helement, hsome⟩

/-! ### Iterators that never cease to walk -/

/-- The iterator stands in a list, and will do so whatever it is bound to, out of the contents that
can come up. -/
structure Steady (admits : (σ → Snapshot) → Prop) (it : Iter σ) : Prop where
  stands : ∃ l, it.Stands l
  sound {live : σ → Snapshot} (h : admits live) : (it.rebound live).Sound

/-- An iterator over one store is steady, whatever its store comes to hold. -/
theorem steady_sorted {c : SortedCursor σ} (h : c.cursor.list.InRange) :
    (sorted c).Steady admits :=
  ⟨⟨_, rfl, h⟩, fun _ => trivial⟩

theorem steady_bag {c : BagCursor σ} (h : c.cursor.list.InRange) : (bag c).Steady admits :=
  ⟨⟨_, rfl, h⟩, fun _ => trivial⟩

namespace Steady

theorem walks (h : it.Steady admits) : ∃ l, it.Walks l := by
  obtain ⟨l, hl⟩ := h.stands
  exact ⟨l, hl.walks⟩

theorem step (h : it.Steady admits) (m : Step) : (it.step m).Steady admits where
  stands := by
    obtain ⟨l, hl⟩ := h.stands
    exact ⟨_, hl.step m⟩
  sound hlive := by
    rw [rebound, still_step]
    exact h.sound hlive

theorem rebind (h : it.Steady admits) (hlive : admits live) (r : Rebind) :
    (it.rebind live r).Steady admits where
  stands := by
    obtain ⟨l, hl⟩ := h.stands
    exact hl.exists_rebind (h.sound hlive) r
  sound hlive' := by
    rw [rebound_rebind]
    exact h.sound hlive'

theorem ofList (h : ∀ s ∈ subs, s.Steady admits) (comparator : Comparator) (kind : IndexKind) :
    (Iter.ofList subs comparator kind).Steady admits where
  stands := ⟨_, stands_ofList (fun s hs => (h s hs).stands) comparator kind⟩
  sound hlive := by
    rw [rebound, still_ofList, ← stillAll_eq, Sound, stillAll_eq, soundAll_iff,
      List.forall_mem_map]
    exact fun s hs => (h s hs).sound hlive

/-- The iterators of a steady concatenation are steady. -/
theorem of_mem (h : (concat c).Steady admits) {s : Iter σ} (hs : s ∈ c.subs) :
    s.Steady admits := by
  obtain ⟨subs, comparator, kind, current⟩ := c
  obtain ⟨l, cs, hcs, -⟩ := h.stands
  obtain ⟨d, hd⟩ := Concat.exists_of_forall₂ hcs s hs
  exact ⟨⟨d, stands_of_standsTo hd⟩, fun hlive => sound_rebound_of_mem (h.sound hlive) hs⟩

end Steady

/-- **A steady concatenation goes on to walk** after any rebinding. -/
theorem Joining.exists_rebind (h : Joining it l) (hit : it.Steady admits) (hlive : admits live)
    (r : Rebind) : ∃ l', Joining (it.rebind live r) l' := by
  obtain ⟨c, rfl⟩ := h.exists_concat
  have hsubs : ∀ s ∈ c.subs, ∃ d, (s.rebind live r).Walks d := fun s hs =>
    ((hit.of_mem hs).rebind hlive r).walks
  cases r with
  | first => exact ⟨_, h.first hsubs⟩
  | last => exact ⟨_, h.last hsubs⟩
  | toward target =>
      obtain ⟨ds, hds⟩ := Concat.exists_forall₂
        (R := fun (s : Iter σ) d => (s.rebind live (.toward target)).Walks d) hsubs
      exact ⟨_, h.toward hds⟩

end Iter

/-! ### Concatenations that an index hands out -/

namespace Index

variable {ix : Index} {t : TypeCode} {withSubtypes : Bool} {c : Concat (Iter TypeCode)}

theorem steady_leafIter {admits : (TypeCode → Snapshot) → Prop} (d : Definition) (u : TypeCode)
    (now : Snapshot) : (leafIter d u now).Steady admits := by
  unfold leafIter
  split
  · exact Iter.steady_sorted (ListCursor.inRange_seek ⟨now.elements, none⟩ 0)
  · exact Iter.steady_sorted (ListCursor.inRange_seek ⟨now.elements, none⟩ 0)
  · exact Iter.steady_bag (ListCursor.inRange_seek ⟨now.elements, none⟩ 0)

/-- **A concatenation in use walks what its leaves are bound to**, whatever has happened to the
index. -/
theorem Handed.joining (h : Handed t withSubtypes ix (.concat c)) :
    (∃ l, Iter.Joining (.concat c) l) ∧ (Iter.concat c).Steady fun _ => True := by
  generalize hit : Iter.concat c = it at h
  induction h generalizing c with
  | @iterate ix it h hok =>
      subst hit
      have hhanded := Handed.iterate h hok
      obtain ⟨-, -, -, hkind⟩ := hhanded.rebound_concat ix.snapshot
      have htwo := hhanded.two_le_asked
      rw [iterate_eq h.sound (mem_types_of_iterate hok), Except.ok.injEq,
        assemble_of_two htwo] at hok
      have hleaves : ∀ s ∈ (asked ix.system t withSubtypes).map
          (fun u => leafIter ix.definition u (ix.snapshot u)), s.Steady fun _ => True := by
        rw [List.forall_mem_map]
        exact fun u _ => steady_leafIter ix.definition u (ix.snapshot u)
      have hwalks := fun s hs => (hleaves s hs).walks
      rw [← hok]
      cases hd : ix.definition.kind with
      | sorted => exact absurd hd hkind
      | set | bag => exact ⟨⟨_, .ofList hwalks _ _⟩, .ofList hleaves _ _⟩
  | @step ix it h m ih =>
      cases it with
      | concat c₀ =>
          obtain ⟨⟨l, hl⟩, hsteady⟩ := ih rfl
          exact ⟨⟨_, hl.step m⟩, hsteady.step m⟩
      | _ => cases hit
  | @rebind ix it h r ih =>
      cases it with
      | concat c₀ =>
          obtain ⟨⟨l, hl⟩, hsteady⟩ := ih rfl
          exact ⟨hl.exists_rebind hsteady trivial r, hsteady.rebind trivial r⟩
      | _ => cases hit
  | change _ _ ih => exact ih hit

/-- The iterators of a concatenation in use land where the leaves of their types do. -/
theorem Handed.forall₂_rebind (h : Handed t withSubtypes ix (.concat c)) (r : Rebind) :
    List.Forall₂ (fun (s : Iter TypeCode) u => s.rebind ix.snapshot r =
        (leafIter ix.definition u (ix.snapshot u)).rebind ix.snapshot r)
      c.subs (asked ix.system t withSubtypes) := by
  obtain ⟨hsubs, -⟩ := h.rebound_concat ix.snapshot
  rw [← List.forall₂_eq_eq_eq, List.forall₂_map_left_iff, List.forall₂_map_right_iff] at hsubs
  exact hsubs.imp fun s u hsu => (Iter.rebind_congr (undivided_leafIter ..) hsu.symm r).symm

/-- The first match in the leaves of some types, in this order. -/
def firstMatch (d : Definition) (live : TypeCode → Snapshot) (us : List TypeCode)
    (target : FeatureStructure) : Option FeatureStructure :=
  us.findSome? fun u => (live u).elements.find? fun e => leafOrder d e target == .eq

theorem isMatch_eq (h : Handed t withSubtypes ix (.concat c)) (target e : FeatureStructure) :
    c.isMatch target e = (leafOrder ix.definition e target == .eq) := by
  obtain ⟨-, hcomparator, hkind, hsorted⟩ := h.rebound_concat ix.snapshot
  rw [Concat.isMatch, leafOrder, hcomparator, hkind]
  cases hd : ix.definition.kind with
  | sorted => exact absurd hd hsorted
  | set => rfl
  | bag =>
      rw [Bool.eq_iff_iff, beq_iff_eq, beq_iff_eq, Comparator.compareIds_eq_eq]

/-- **A concatenation in use that moves to a target** lands at the first match, in the first leaf
that holds one. -/
theorem Handed.rebind_toward (h : Handed t withSubtypes ix (.concat c))
    (target : FeatureStructure) :
    let found := (Iter.concat c).rebind ix.snapshot (.toward target)
    let first := firstMatch ix.definition ix.snapshot (asked ix.system t withSubtypes) target
    found.element? = first ∧ found.isValid = first.isSome := by
  intro found first
  have hkind := (h.rebound_concat ix.snapshot).2.2.2
  have hlands : List.Forall₂ (fun (s : Iter TypeCode) u =>
      (s.rebind ix.snapshot (.toward target)).Walks
        (ListCursor.after (ix.snapshot u).elements (passes ix.definition target)))
      c.subs (asked ix.system t withSubtypes) := by
    refine (h.forall₂_rebind (.toward target)).imp fun s u hsu => ?_
    rw [hsu]
    exact (stands_leafIter_toward h.sound.1 target u _).walks
  -- where a match would be is the only place where one can be
  have hfirst : (c.subs.findSome? fun s => (s.rebind ix.snapshot (.toward target)).element?.filter
      (c.isMatch target)) = first := by
    refine findSome?_congr (hlands.imp fun s u hsu => ?_)
    rw [hsu.element?, ListCursor.element?_after, funext (isMatch_eq h target),
      funext (passes_of_ne_sorted hkind target)]
    exact (ascending_snapshot h.sound.1 u).getElem?_countP_filter target
  rw [← hfirst]
  rw [← List.forall₂_map_right_iff] at hlands
  exact Iter.rebind_toward c fun s hs => Concat.exists_of_forall₂ hlands s hs

end Index

namespace Iter

variable {σ : Type}

/-- **A concatenation cannot be told from a list cursor over the lists of its iterators.** Wherever
these stood when they were put together, the concatenation stands where the list cursor stands,
which starts at the first element of all. Iterators that never cease to walk can be rebound in any
way and at any time. What an index hands out is made of such; there a move to a target lands at the
match in the first leaf that holds one, and nowhere if none does. -/
theorem joining_spec :
    (∀ (it : Iter σ) (l : ListCursor), Joining it l →
      it.isValid = l.isValid ∧ it.get = l.get ∧
      (∃ c, it = concat c ∧ l.items = c.subs.flatMap bound) ∧ it.Walks l) ∧
    (∀ (admits : (σ → Snapshot) → Prop) (subs : List (Iter σ)), (∀ s ∈ subs, s.Steady admits) →
      ∀ (comparator : Comparator) (kind : IndexKind),
        (ofList subs comparator kind).Steady admits ∧
        Joining (ofList subs comparator kind)
          (ListCursor.step .first ⟨subs.flatMap bound, none⟩)) ∧
    (∀ (admits : (σ → Snapshot) → Prop) (it : Iter σ) (l : ListCursor), Joining it l →
      it.Steady admits →
      (∀ m, (it.step m).Steady admits ∧ Joining (it.step m) (l.step m)) ∧
      ∀ live, admits live → ∀ r,
        (it.rebind live r).Steady admits ∧ ∃ l', Joining (it.rebind live r) l') ∧
    ∀ (ix : Index) (t : TypeCode) (withSubtypes : Bool) (c : Concat (Iter TypeCode)),
      ix.Handed t withSubtypes (concat c) →
      ((∃ l, Joining (concat c) l) ∧ (concat c).Steady fun _ => True) ∧
      ∀ target : FeatureStructure,
        let found := (concat c).rebind ix.snapshot (.toward target)
        let first := Index.firstMatch ix.definition ix.snapshot
          (Index.asked ix.system t withSubtypes) target
        found.isValid = first.isSome ∧
          found.get = match first with
            | some fs => .ok fs
            | none => .error .invalidIterator := by
  refine ⟨fun it l h => ?_, fun admits subs hsubs comparator kind => ?_,
    fun admits it l h hit => ?_, fun ix t withSubtypes c h => ⟨h.joining, fun target => ?_⟩⟩
  · refine ⟨h.walks.isValid, h.walks.get, ?_, h.walks⟩
    obtain ⟨⟨subs, comparator, kind, current⟩, rfl⟩ := h.exists_concat
    exact ⟨_, rfl, h.walks.items.trans (boundAll_eq subs)⟩
  · exact ⟨.ofList hsubs comparator kind, .ofList (fun s hs => (hsubs s hs).walks) comparator kind⟩
  · exact ⟨fun m => ⟨hit.step m, h.step m⟩,
      fun live hlive r => ⟨hit.rebind hlive r, h.exists_rebind hit hlive r⟩⟩
  · intro found first
    obtain ⟨helement, hvalid⟩ : found.element? = first ∧ found.isValid = first.isSome :=
      h.rebind_toward target
    refine ⟨hvalid, ?_⟩
    rw [get, hvalid, helement]
    cases first <;> rfl

open Index.Sample (mark word)

/-- A bag of a mark and a word: the word is found behind the mark by its id, and a step to the last
element leads there too. -/
theorem joining_sample :
    let ix := Index.Sample.bag.after Index.Sample.bagChanges
    ∃ c, ix.Handed ⟨1⟩ true (concat c) ∧
      ((concat c).rebind ix.snapshot (.toward (word 1 7))).get = .ok (word 1 2) ∧
      ((concat c).step .last).get = .ok (word 1 2) ∧
      ∃ l, ((concat c).step .last).Walks l ∧ l.items = [mark 0 1, word 1 2] := by
  intro ix
  obtain ⟨hrun, -, hmoves, hindex⟩ := joining_spec (σ := TypeCode)
  have hhanded : ix.Handed ⟨1⟩ true (concat _) :=
    .iterate (Index.Sample.reachable_bag.after Index.Sample.bagChanges) rfl
  obtain ⟨⟨⟨l, hl⟩, hsteady⟩, htarget⟩ := hindex ix ⟨1⟩ true _ hhanded
  have hlast := ((hmoves _ _ l hl hsteady).1 .last).2
  obtain ⟨-, -, -, hwalks⟩ := hrun _ _ hlast
  exact ⟨_, hhanded, (htarget (word 1 7)).2, rfl, _, hwalks, hwalks.items⟩

end Iter
end FeatureIndex
