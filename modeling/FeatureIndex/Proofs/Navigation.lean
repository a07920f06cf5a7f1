import FeatureIndex.Proofs.Iteration

/-!
# Navigating a merge while the index changes

A sorted index hands out a merge over the leaves of several types. Calls move the merge or rebind
it, and the index changes between them. A `Scene` plays the same calls on a list cursor beside the
merge: a step moves it within its list, and a rebinding puts it into the sorted union of what the
leaves hold then, at an end or at a key.

`Scene.plays` says that the two cannot be told apart as long as no two structures of the index share
an id.
-/

namespace FeatureIndex.Index

/-- A call on an iterator, or a change of the index that handed it out. -/
inductive Event where
  | step (s : Step)
  | rebind (r : Rebind)
  | change (c : Change)

/-- An index, an iterator that it handed out, and a list cursor. -/
structure Scene where
  index : Index
  iter : Iter TypeCode
  cursor : ListCursor

/-- What the leaves of some types hold, sorted by keys and ids. -/
def sortedUnion (ix : Index) (us : List TypeCode) : List FeatureStructure :=
  union ix.definition.comparator.compareFully (us.map fun t => (ix.snapshot t).elements)

namespace Scene

/-- An iterator over some types, and a list cursor at the first element of what they hold. -/
def start (ix : Index) (us : List TypeCode) (it : Iter TypeCode) : Scene :=
  ⟨ix, it, ListCursor.step .first ⟨ix.sortedUnion us, none⟩⟩

/-- What an event does to the index, to the iterator over some types, and to the list cursor. -/
def play (us : List TypeCode) (s : Scene) : Event → Scene
  | .step m => ⟨s.index, s.iter.step m, s.cursor.step m⟩
  | .rebind r =>
    ⟨s.index, s.iter.rebind s.index.snapshot r,
      Merge.landing s.index.definition.comparator (s.index.sortedUnion us) r⟩
  | .change c => ⟨c.apply s.index, s.iter, s.cursor⟩

/-- No two structures of the index share an id, before and after each of some events. -/
def StaysCoherent (us : List TypeCode) (s : Scene) : List Event → Prop
  | [] => s.index.Coherent
  | e :: rest => s.index.Coherent ∧ (s.play us e).StaysCoherent us rest

instance decidableStaysCoherent (us : List TypeCode) (s : Scene) :
    (es : List Event) → Decidable (s.StaysCoherent us es)
  | [] => inferInstanceAs (Decidable s.index.Coherent)
  | e :: rest =>
    have := decidableStaysCoherent us (s.play us e) rest
    inferInstanceAs (Decidable (s.index.Coherent ∧ _))

/-- The iterator is a merge over the leaves of some types of a sorted index, it stands where the
cursor stands, and it will be bound to those leaves again. -/
structure Sound (us : List TypeCode) (s : Scene) : Prop where
  index : s.index.Sound
  sorted : s.index.kind = .sorted
  stands : ∃ m, s.iter = .merge m ∧ m.Stands s.cursor ∧ ∀ live,
    m.rebound live = (startMerge s.index.definition live us).rebound live

variable {us : List TypeCode} {s : Scene}

/-- A coherent index binds the merge to the sorted union. -/
theorem Sound.rebound (h : s.Sound us) (hc : s.index.Coherent) (hus : us.Nodup) {m : Merge TypeCode}
    (hm : ∀ live, m.rebound live = (startMerge s.index.definition live us).rebound live) :
    (m.rebound s.index.snapshot).Sound ∧
      (m.rebound s.index.snapshot).union = s.index.sortedUnion us := by
  have hbinding := binding_rebound_startMerge s.index.definition s.index.snapshot us
  have hsound := sound_startMerge (hc.tellable h.index hus) h.sorted
  rw [hm]
  refine ⟨hsound.congr hbinding, (Merge.union_congr hbinding).trans ?_⟩
  rw [Merge.union, views_startMerge]
  rfl

/-- **No event tells the merge from the list cursor.** -/
theorem Sound.play (h : s.Sound us) (hc : s.index.Coherent) (hus : us.Nodup) (e : Event) :
    (s.play us e).Sound us := by
  obtain ⟨ix, it, l⟩ := s
  obtain ⟨m, rfl, hstands, hrebound⟩ := h.stands
  cases e with
  | step a =>
      refine ⟨h.index, h.sorted, m.step a, rfl, hstands.step a, ?_⟩
      intro live
      rw [m.rebound_step]
      exact hrebound live
  | rebind r =>
      -- the index is coherent now, so the merge lands in the union of what it holds now
      obtain ⟨hsound, hunion⟩ := h.rebound hc hus hrebound
      have hlands := Merge.stands_rebind ix.snapshot m hsound r
      have hcomparator : m.comparator = ix.definition.comparator :=
        congrArg Merge.comparator (hrebound ix.snapshot)
      rw [hunion, hcomparator] at hlands
      refine ⟨h.index, h.sorted, m.rebind ix.snapshot r, rfl, hlands, ?_⟩
      intro live
      rw [m.rebound_rebind]
      exact hrebound live
  | change c =>
      refine ⟨sound_change h.index c, ?_, m, rfl, hstands, ?_⟩
      · show (c.apply ix).definition.kind = .sorted
        rw [definition_apply]
        exact h.sorted
      · intro live
        show m.rebound live = (startMerge (c.apply ix).definition live us).rebound live
        rw [definition_apply]
        exact hrebound live

theorem Sound.foldl_play (h : s.Sound us) (hus : us.Nodup) {es : List Event}
    (hc : s.StaysCoherent us es) : (es.foldl (Scene.play us) s).Sound us := by
  -- the index may change at every event, so coherence goes along
  induction es generalizing s with
  | nil => exact h
  | cons e rest ih => exact ih (h.play hc.1 hus e) hc.2

end Scene

/-- A merge that an index hands out stands at the first element of the sorted union. -/
theorem Scene.sound_start {ix : Index} {t : TypeCode} {withSubtypes : Bool} {m : Merge TypeCode}
    (h : ix.Sound) (hc : ix.Coherent) (hok : ix.iterate t withSubtypes = .ok (.merge m)) :
    Sound (asked ix.system t withSubtypes)
      (start ix (asked ix.system t withSubtypes) (.merge m)) := by
  have ht := mem_types_of_iterate hok
  obtain ⟨rest, hasked, -⟩ := exists_asked h ht withSubtypes
  have hne : asked ix.system t withSubtypes ≠ [] := by rw [hasked]; exact List.cons_ne_nil _ _
  have hstands := stands_assemble hne (hc.tellable h (nodup_asked h t withSubtypes))
  rw [iterate_eq h ht, Except.ok.injEq] at hok
  rw [hok, listing] at hstands
  generalize asked ix.system t withSubtypes = us at *
  rcases eq_singleton_or_two_le hne with ⟨u, rfl⟩ | htwo
  · -- a single leaf is not merged
    rw [assemble, leafIter] at hok
    split at hok <;> cases hok
  · rw [assemble_of_two htwo] at hok
    cases hkind : ix.definition.kind with
    | sorted =>
        simp only [hkind, Iter.merge.injEq] at hok hstands
        refine ⟨h, hkind, m, rfl, hstands, ?_⟩
        intro live
        rw [← hok]
        exact rebound_startMerge ix.definition ix.snapshot live us
    | set | bag =>
        simp only [hkind] at hok
        cases hok

/-- **A merge simulates a list cursor** over the sorted union of what its leaves hold. After any
calls and changes the merge is valid where the cursor is, and gives the element that the cursor
gives; the list of the cursor is the union of what the merge is bound to, and ascends strictly. -/
theorem merge_simulates {ix : Index} (h : ix.Reachable) {t : TypeCode} {withSubtypes : Bool}
    {m : Merge TypeCode} (hok : ix.iterate t withSubtypes = .ok (.merge m)) (es : List Event)
    (hc : (Scene.start ix (asked ix.system t withSubtypes) (.merge m)).StaysCoherent
      (asked ix.system t withSubtypes) es) :
    let s := es.foldl (Scene.play (asked ix.system t withSubtypes))
      (Scene.start ix (asked ix.system t withSubtypes) (.merge m))
    s.iter.isValid = s.cursor.isValid ∧ s.iter.get = s.cursor.get ∧
      ∃ m', s.iter = .merge m' ∧ s.cursor.items = m'.union ∧
        Ascending s.index.definition.comparator.compareFully m'.union := by
  intro s
  have hcoherent : ix.Coherent := by cases es with
    | nil => exact hc
    | cons e rest => exact hc.1
  have hs := (Scene.sound_start h.sound hcoherent hok).foldl_play (nodup_asked h.sound ..) hc
  obtain ⟨m', hiter, hstands, hrebound⟩ := hs.stands
  have hcomparator : m'.comparator = s.index.definition.comparator :=
    congrArg Merge.comparator (hrebound s.index.snapshot)
  have hfollows : s.iter.Stands s.cursor := by
    rw [hiter]
    exact hstands
  refine ⟨hfollows.isValid, hfollows.get, m', hiter, hstands.items, ?_⟩
  rw [← hcomparator]
  exact hstands.sound.ascending_union

/-- The merge over marks and words. -/
def Sample.merge : Merge TypeCode :=
  (startMerge Sample.definition Sample.index.snapshot [⟨1⟩, ⟨2⟩]).selected true

/-- A step, an insertion that the merge does not see, a turn, and a move to a key, which sees it. -/
def Sample.events : List Event :=
  [.step .next, .change (.insert (Sample.word 3 1)), .step .previous,
    .rebind (.toward (Sample.mark 4 1)), .step .next]

theorem merge_sample :
    let s := Sample.events.foldl (Scene.play [⟨1⟩, ⟨2⟩])
      (Scene.start Sample.index [⟨1⟩, ⟨2⟩] (.merge Sample.merge))
    s.iter.isValid = s.cursor.isValid ∧ s.iter.get = s.cursor.get := by
  have hok : Sample.index.iterate ⟨1⟩ true = .ok (.merge Sample.merge) := rfl
  have hs := merge_simulates Sample.reachable_index hok Sample.events (by decide)
  exact ⟨hs.1, hs.2.1⟩

end FeatureIndex.Index
