import FeatureIndex.Proofs.Lockstep

/-!
# Iterators in lockstep

Two iterators are in step when their trees of cursors are (`Iter.InStep`): the same kinds of cursors
at every level, over paired stores. They then answer every question alike, also those about the
present contents, and both steps and rebindings keep them in step: `InStep.step`, `InStep.rebind`,
`InStep.get`, `InStep.isFresh`, `InStep.size`, `InStep.collect`. Putting iterators together that are
in step gives iterators that are.
-/

namespace FeatureIndex

namespace Iter

variable {σ τ : Type} {P : Pairing σ τ} {live : σ → Snapshot} {live' : τ → Snapshot}
  {it : Iter σ} {it' : Iter τ} {d : Nat}

/-- Iterators of one kind that are in step as long as those inside them are in a relation. -/
inductive Parallel (P : Pairing σ τ) (R : Iter σ → Iter τ → Prop) : Iter σ → Iter τ → Prop
  | sorted {c c'} (h : SortedCursor.InStep P c c') : Parallel P R (sorted c) (sorted c')
  | bag {c c'} (h : BagCursor.InStep P c c') : Parallel P R (bag c) (bag c')
  | merge {m m'} (h : Merge.InStep P m m') : Parallel P R (merge m) (merge m')
  | concat {c c'} (h : Concat.InStep R c c') : Parallel P R (concat c) (concat c')
  | filtered {f f'} (h : Filtered.InStep R f f') : Parallel P R (filtered f) (filtered f')

/-- Iterators up to a depth that are in step. -/
def inStepTo (P : Pairing σ τ) : Nat → Iter σ → Iter τ → Prop
  | 0 => fun _ _ => False
  | d + 1 => Parallel P (inStepTo P d)

/-- Iterators of one shape over paired stores, at the same places. -/
def InStep (P : Pairing σ τ) (it : Iter σ) (it' : Iter τ) : Prop := inStepTo P it.depth it it'

theorem inStepTo_mono {d d' : Nat} (hd : d ≤ d') (h : inStepTo P d it it') :
    inStepTo P d' it it' := by
  induction d generalizing d' it it' with
  | zero => exact h.elim
  | succ d ih =>
      obtain ⟨d', rfl⟩ : ∃ e, d' = e + 1 := ⟨d' - 1, by omega⟩
      have hle : d ≤ d' := Nat.le_of_succ_le_succ hd
      cases h with
      | sorted h => exact .sorted h
      | bag h => exact .bag h
      | merge h => exact .merge h
      | concat h => exact .concat (h.imp fun _ _ _ => ih hle)
      | filtered h => exact .filtered ⟨ih hle h.base, h.accepts⟩

theorem depthAll_congr {subs : List (Iter σ)} {subs' : List (Iter τ)}
    (h : List.Forall₂ (fun s t => s.depth = t.depth) subs subs') :
    depthAll subs = depthAll subs' := by
  induction h with
  | nil => rfl
  | cons hs _ ih => rw [depthAll, depthAll, hs, ih]

/-- Trees in step are of one height, which is depth enough. -/
theorem inStep_of_inStepTo (h : inStepTo P d it it') :
    it.InStep P it' ∧ it.depth = it'.depth := by
  induction d generalizing it it' with
  | zero => exact h.elim
  | succ d ih =>
      cases h with
      | sorted h => exact ⟨.sorted h, rfl⟩
      | bag h => exact ⟨.bag h, rfl⟩
      | merge h => exact ⟨.merge h, rfl⟩
      | @concat c c' h =>
          obtain ⟨subs, comparator, kind, current⟩ := c
          obtain ⟨subs', comparator', kind', current'⟩ := c'
          refine ⟨.concat (h.imp fun s hs t hst => ?_), congrArg Nat.succ (depthAll_congr ?_)⟩
          · exact inStepTo_mono (depth_le_depthAll hs) (ih hst).1
          · exact h.subs.imp fun _ _ hst => (ih hst).2
      | @filtered f f' h =>
          obtain ⟨base, accepts⟩ := f
          obtain ⟨base', accepts'⟩ := f'
          exact ⟨.filtered ⟨(ih h.base).1, h.accepts⟩, congrArg Nat.succ (ih h.base).2⟩

/-! ### The stores -/

theorem forall₂_leavesAll {subs : List (Iter σ)} {subs' : List (Iter τ)}
    (h : List.Forall₂ (fun s t => List.Forall₂ P.Bound s.leaves t.leaves) subs subs') :
    List.Forall₂ P.Bound (leavesAll subs) (leavesAll subs') := by
  induction h with
  | nil => exact .nil
  | cons hs _ ih => exact List.rel_append hs ih

/-- Iterators in step walk paired stores, in one order, and are bound to what resembles each
other. -/
theorem forall₂_leaves (h : inStepTo P d it it') : List.Forall₂ P.Bound it.leaves it'.leaves := by
  induction d generalizing it it' with
  | zero => exact h.elim
  | succ d ih =>
      have hsorted : ∀ c c', SortedCursor.InStep P c c' →
          P.Bound (c.source, c.cursor.view) (c'.source, c'.cursor.view) := by
        intro c c' h
        obtain ⟨g, hP, hcursor⟩ := h.cursor
        exact ⟨_, g, hP, hcursor.view⟩
      cases h with
      | sorted h => exact .cons (hsorted _ _ h) .nil
      | bag h =>
          obtain ⟨g, hP, hcursor⟩ := h.cursor
          exact .cons ⟨_, g, hP, hcursor.view⟩ .nil
      | merge h => exact List.rel_map (fun _ _ hs => hsorted _ _ hs) h.subs
      | @concat c c' h =>
          obtain ⟨subs, comparator, kind, current⟩ := c
          obtain ⟨subs', comparator', kind', current'⟩ := c'
          exact forall₂_leavesAll (h.subs.imp fun _ _ hs => ih hs)
      | @filtered f f' h =>
          obtain ⟨base, accepts⟩ := f
          obtain ⟨base', accepts'⟩ := f'
          show List.Forall₂ P.Bound base.leaves base'.leaves
          exact ih h.base

theorem totalSize_congr {l : List (σ × Snapshot)} {l' : List (τ × Snapshot)}
    (h : List.Forall₂ P.Bound l l') :
    Snapshot.totalSize (l.map (·.2)) = Snapshot.totalSize (l'.map (·.2)) := by
  induction h with
  | nil => rfl
  | cons hl _ ih =>
      obtain ⟨cmp, g, -, hview⟩ := hl
      exact congrArg₂ (· + ·) hview.size ih

theorem span_congr (h : inStepTo P d it it') : it.span = it'.span := by
  have hleaves := forall₂_leaves h
  rw [span, span, totalSize_congr hleaves, hleaves.length_eq]

/-! ### Moves -/

/-- **Iterators up to any depth move in lockstep.** -/
theorem inStep_walkTo (P : Pairing σ τ) (d : Nat) :
    (walkTo d).InStep (walkTo d) (inStepTo P d) := by
  induction d with
  | zero => exact ⟨False.elim, False.elim, fun h => h.elim, False.elim⟩
  | succ d ih =>
      refine ⟨?_, ?_, ?_, span_congr⟩
      · intro it it' h
        cases h with
        | sorted h => exact h.isValid
        | bag h => exact h.isValid
        | merge h => exact h.isValid
        | concat h => exact h.isValid
        | filtered h => exact ih.isValid h.base
      · intro it it' h
        cases h with
        | sorted h => exact h.element?
        | bag h => exact h.element?
        | merge h => exact h.element?
        | concat h => exact h.element? ih
        | filtered h => exact ih.element? h.base
      · intro it it' h m
        cases h with
        | sorted h => exact .sorted (h.step m)
        | bag h => exact .bag (h.step m)
        | merge h => exact .merge (h.step m)
        | concat h => exact .concat (h.step ih m)
        | filtered h => exact .filtered (h.step ih m)

theorem inStepTo_rebindTo (hlive : P.Live live live') (h : inStepTo P d it it') (r : Rebind) :
    inStepTo P d (rebindTo live d r it) (rebindTo live' d r it') := by
  induction d generalizing it it' r with
  | zero => exact h.elim
  | succ d ih =>
      cases h with
      | sorted h => exact .sorted (h.rebind hlive r)
      | bag h => exact .bag (h.rebind hlive r)
      | merge h => exact .merge (h.rebind hlive r)
      | concat h => exact .concat (h.rebind (inStep_walkTo P d) (fun r _ _ hs => ih hs r) r)
      | filtered h => exact .filtered (h.rebind (inStep_walkTo P d) (fun r _ _ hs => ih hs r) r)

theorem sizeAll_congr {subs : List (Iter σ)} {subs' : List (Iter τ)}
    (h : List.Forall₂ (fun s t => size live s = size live' t) subs subs') :
    sizeAll live subs = sizeAll live' subs' := by
  induction h with
  | nil => rfl
  | cons hs _ ih => rw [sizeAll, sizeAll, hs, ih]

theorem size_congr (hlive : P.Live live live') (h : inStepTo P d it it') :
    it.size live = it'.size live' := by
  induction d generalizing it it' with
  | zero => exact h.elim
  | succ d ih =>
      have hsorted : ∀ c c', SortedCursor.InStep P c c' →
          (live c.source).size = (live' c'.source).size := by
        intro c c' h
        obtain ⟨g, hP, -⟩ := h.cursor
        exact (hlive _ _ _ _ hP).size
      cases h with
      | sorted h => exact congrArg Except.ok (hsorted _ _ h)
      | bag h =>
          obtain ⟨g, hP, -⟩ := h.cursor
          exact congrArg Except.ok (hlive _ _ _ _ hP).size
      | merge h =>
          refine congrArg Except.ok ?_
          rw [totalSize_eq, totalSize_eq, List.map_map, List.map_map]
          refine congrArg List.sum ?_
          rw [← List.forall₂_eq_eq_eq]
          exact List.rel_map hsorted h.subs
      | @concat c c' h =>
          obtain ⟨subs, comparator, kind, current⟩ := c
          obtain ⟨subs', comparator', kind', current'⟩ := c'
          exact sizeAll_congr (h.subs.imp fun _ _ hs => ih hs)
      | filtered h => rfl

theorem comparator?_congr (h : inStepTo P d it it') : it.comparator? = it'.comparator? := by
  induction d generalizing it it' with
  | zero => exact h.elim
  | succ d ih =>
      cases h with
      | sorted h => exact congrArg some h.comparator
      | bag h => rfl
      | merge h => exact congrArg some h.comparator
      | concat h => rfl
      | @filtered f f' h =>
          obtain ⟨base, accepts⟩ := f
          obtain ⟨base', accepts'⟩ := f'
          show base.comparator? = base'.comparator?
          exact ih h.base

theorem mapAll_eq {σ' : Type} (f : σ → σ') (subs : List (Iter σ)) :
    mapAll f subs = subs.map (map f) := by
  induction subs with
  | nil => rfl
  | cons it rest ih => rw [mapAll, ih, List.map_cons]

theorem inStepTo_map {σ' τ' : Type} {P' : Pairing σ' τ'} {f : σ → σ'} {f' : τ → τ'}
    (hf : ∀ cmp g a b, P cmp g a b → P' cmp g (f a) (f' b)) (h : inStepTo P d it it') :
    inStepTo P' d (it.map f) (it'.map f') := by
  induction d generalizing it it' with
  | zero => exact h.elim
  | succ d ih =>
      have hsorted : ∀ c c', SortedCursor.InStep P c c' →
          SortedCursor.InStep P' ⟨f c.source, c.comparator, c.cursor⟩
            ⟨f' c'.source, c'.comparator, c'.cursor⟩ := by
        intro c c' h
        obtain ⟨g, hP, hcursor⟩ := h.cursor
        exact ⟨h.comparator, g, hf _ _ _ _ hP, hcursor⟩
      cases h with
      | sorted h => exact .sorted (hsorted _ _ h)
      | bag h =>
          obtain ⟨g, hP, hcursor⟩ := h.cursor
          exact .bag ⟨⟨g, hf _ _ _ _ hP, hcursor⟩⟩
      | merge h =>
          exact .merge ⟨List.rel_map hsorted h.subs, h.comparator, h.current, h.forward⟩
      | @concat c c' h =>
          obtain ⟨subs, comparator, kind, current⟩ := c
          obtain ⟨subs', comparator', kind', current'⟩ := c'
          rw [map, map, mapAll_eq, mapAll_eq]
          exact .concat ⟨List.rel_map (fun _ _ hs => ih hs) h.subs, h.comparator, h.kind, h.current⟩
      | @filtered f f' h =>
          obtain ⟨base, accepts⟩ := f
          obtain ⟨base', accepts'⟩ := f'
          exact .filtered ⟨ih h.base, h.accepts⟩

/-! ### Iterators in step -/

namespace InStep

theorem of_inStepTo (h : inStepTo P d it it') : it.InStep P it' := (inStep_of_inStepTo h).1

theorem depth (h : it.InStep P it') : it.depth = it'.depth := (inStep_of_inStepTo h).2

theorem isValid (h : it.InStep P it') : it.isValid = it'.isValid := by
  rw [Iter.isValid, Iter.isValid, walk, walk, ← h.depth]
  exact (inStep_walkTo P it.depth).isValid h

theorem element? (h : it.InStep P it') : it.element? = it'.element? := by
  rw [Iter.element?, Iter.element?, walk, walk, ← h.depth]
  exact (inStep_walkTo P it.depth).element? h

theorem get (h : it.InStep P it') : it.get = it'.get := by
  rw [Iter.get, Iter.get, h.isValid, h.element?]

/-- **A step keeps iterators in step.** -/
theorem step (h : it.InStep P it') (m : Step) : (it.step m).InStep P (it'.step m) := by
  rw [Iter.step, Iter.step, walk, walk, ← h.depth]
  exact of_inStepTo ((inStep_walkTo P it.depth).step h m)

/-- **A rebinding keeps iterators in step.** -/
theorem rebind (h : it.InStep P it') (hlive : P.Live live live') (r : Rebind) :
    (it.rebind live r).InStep P (it'.rebind live' r) := by
  rw [Iter.rebind, Iter.rebind, ← h.depth]
  exact of_inStepTo (inStepTo_rebindTo hlive h r)

theorem take (h : it.InStep P it') (limit : Nat) :
    (it.take limit).1 = (it'.take limit).1 ∧ (it.take limit).2.InStep P (it'.take limit).2 := by
  rw [Iter.take, Iter.take, walk, walk, ← h.depth]
  obtain ⟨hfound, hbehind⟩ := (inStep_walkTo P it.depth).collect h limit
  exact ⟨hfound, of_inStepTo hbehind⟩

/-- **Iterators in step collect the same.** -/
theorem collect (h : it.InStep P it') (hlive : P.Live live live') :
    (it.collect live).1 = (it'.collect live').1 ∧
      (it.collect live).2.InStep P (it'.collect live').2 := by
  have hfirst := h.rebind hlive .first
  rw [Iter.collect, Iter.collect, Iter.rest, Iter.rest, span_congr hfirst]
  exact hfirst.take _

theorem isFresh (h : it.InStep P it') (hlive : P.Live live live') :
    it.isFresh live = it'.isFresh live' := by
  have hleaves := forall₂_leaves h
  rw [Iter.isFresh, Iter.isFresh]
  generalize it.leaves = l, it'.leaves = l' at hleaves
  induction hleaves with
  | nil => rfl
  | cons hl _ ih =>
      obtain ⟨cmp, g, hP, hview⟩ := hl
      rw [List.all_cons, List.all_cons, (hlive _ _ _ _ hP).sameGeneration hview, ih]

theorem size (h : it.InStep P it') (hlive : P.Live live live') :
    it.size live = it'.size live' :=
  size_congr hlive h

/-- Iterators in step are of one kind. -/
theorem parallel (h : it.InStep P it') : ∃ R, Parallel P R it it' := by
  obtain ⟨d, hd⟩ : ∃ d, it.depth = d + 1 := by
    rcases it with c | c | m | ⟨subs, comparator, kind, current⟩ | ⟨base, accepts⟩ <;>
      exact ⟨_, rfl⟩
  rw [InStep, hd] at h
  exact ⟨_, h⟩

theorem kind (h : it.InStep P it') : it.kind = it'.kind := by
  obtain ⟨R, h⟩ := h.parallel
  cases h <;> rfl

/-- Iterators in step have the same order, or both have none. -/
theorem toOrdered (h : it.InStep P it') :
    OutcomeRel (fun p q => p.comparator = q.comparator ∧ p.iter.get = q.iter.get)
      it.toOrdered it'.toOrdered := by
  have hcomparator := comparator?_congr h
  cases hc : it.comparator? with
  | none =>
      rw [hc] at hcomparator
      rw [toOrdered_eq_error hc, toOrdered_eq_error hcomparator.symm]
      exact .error _
  | some c =>
      rw [hc] at hcomparator
      rw [toOrdered_eq_ok hc, toOrdered_eq_ok hcomparator.symm]
      exact .ok ⟨rfl, h.get⟩

theorem compareTo {jt : Iter σ} {jt' : Iter τ} (h : it.InStep P it') (h' : jt.InStep P jt') :
    it.compareTo jt = it'.compareTo jt' := by
  refine h.toOrdered.bind_eq fun p q hpq => h'.toOrdered.bind_eq fun p' q' hpq' => ?_
  rw [OrderedIter.compareTo, OrderedIter.compareTo, hpq.1, hpq.2, hpq'.1, hpq'.2]

theorem map {σ' τ' : Type} {P' : Pairing σ' τ'} {f : σ → σ'} {f' : τ → τ'} (h : it.InStep P it')
    (hf : ∀ cmp g a b, P cmp g a b → P' cmp g (f a) (f' b)) :
    (it.map f).InStep P' (it'.map f') :=
  of_inStepTo (inStepTo_map hf h)

theorem filter (h : it.InStep P it') (accepts : FeatureStructure → Bool) :
    (it.filter accepts).InStep P (it'.filter accepts) := by
  rw [Iter.filter, Iter.filter, walk, walk, ← h.depth]
  have hbase := Filtered.InStep.ofCursor (inStep_walkTo P it.depth) h accepts
  exact of_inStepTo (d := it.depth + 1) (.filtered hbase)

theorem ofList {subs : List (Iter σ)} {subs' : List (Iter τ)}
    (h : List.Forall₂ (InStep P) subs subs') (comparator : Comparator) (kind : IndexKind) :
    (ofList subs comparator kind).InStep P (ofList subs' comparator kind) := by
  have hdepth : depthAll subs = depthAll subs' := depthAll_congr (h.imp fun _ _ hs => hs.depth)
  have hsubs := (List.forall₂_and_left subs subs').mpr ⟨fun _ hs => hs, h⟩
  have hconcat : Concat.InStep (inStepTo P (depthAll subs)) ⟨subs, comparator, kind, none⟩
      ⟨subs', comparator, kind, none⟩ :=
    ⟨hsubs.imp fun s t hst => inStepTo_mono (depth_le_depthAll hst.1) hst.2, rfl, rfl, rfl⟩
  rw [Iter.ofList, Iter.ofList, Concat.ofCursors, Concat.ofCursors, ← hdepth]
  exact of_inStepTo (d := depthAll subs + 1)
    (.concat (hconcat.firstFrom (inStep_walkTo P (depthAll subs)) 0))

theorem ofSorted {subs : List (SortedCursor σ)} {subs' : List (SortedCursor τ)}
    (h : List.Forall₂ (SortedCursor.InStep P) subs subs') :
    OutcomeRel (InStep P) (ofSorted subs) (ofSorted subs') :=
  (Merge.ofCursors_inStep h).bind fun _ _ hm => .ok (of_inStepTo (d := 1) (.merge hm))

end InStep
end Iter
end FeatureIndex
