import FeatureIndex.Proofs.Navigation
import FeatureIndex.Proofs.Walking

/-!
# A filter walks the accepted elements

Whatever iterator stands behind a condition, as long as it walks a list, the filter walks those
elements of the list that the condition accepts. `Filtering` runs a list cursor over these beside
the filter: steps move it within them, and a rebinding puts it into the accepted elements of what
the base is bound to then.

Where a filter lands is told by `ListCursor.among`: at the first accepted element from where the
base stands on, be it that the filter was just put there or that the base has moved to a target.
`filtering_spec` says that the filter and the list cursor cannot be told apart. As the filter walks
a list again, this holds of filters of filters too.
-/

namespace FeatureIndex

namespace ListCursor

variable {l : ListCursor} {accepts : FeatureStructure → Bool}

/-- Over the accepted elements, at the first one from where the cursor stands on. -/
def among (accepts : FeatureStructure → Bool) (l : ListCursor) : ListCursor :=
  seek ⟨l.items.filter accepts, none⟩ (Filtered.reached accepts true l)

@[simp] theorem items_among (accepts : FeatureStructure → Bool) (l : ListCursor) :
    (l.among accepts).items = l.items.filter accepts := rfl

theorem element?_among (accepts : FeatureStructure → Bool) (l : ListCursor) :
    (l.among accepts).element? = l.remaining.find? accepts := by
  obtain ⟨items, position⟩ := l
  rw [among, element?_seek, remaining]
  cases position with
  | none =>
      simp only [Filtered.reached, List.countP_eq_length_filter, List.find?_nil]
      simp
  | some p =>
      -- what is accepted before the position comes first
      have hsplit : items.filter accepts =
          (items.take p).filter accepts ++ (items.drop p).filter accepts := by
        rw [← List.filter_append, List.take_append_drop]
      simp only [Filtered.reached, ↓reduceIte, hsplit, List.countP_eq_length_filter]
      rw [List.getElem?_append_right (Nat.le_refl _), Nat.sub_self, ← List.head?_filter,
        List.head?_eq_getElem?]

end ListCursor

namespace Iter

variable {σ : Type} {accepts : FeatureStructure → Bool} {base it : Iter σ} {l c : ListCursor}

/-! ### One move of a filter -/

/-- A filter stands where its base, which walks, goes on to. -/
theorem Walks.settle {f : Filtered (Iter σ)} (h : f.base.Walks l) {d : Nat} (hd : f.base.depth ≤ d)
    (forward : Bool) :
    (filtered (f.settle (walkTo d) (.ahead forward))).Walks
      (Filtered.arrived forward (l.items.filter f.accepts)
        (Filtered.reached f.accepts forward l)) :=
  walks_of_standsOver (d := d) (Filtered.stands_settle (follows_walksTo d) ⟨hd, h⟩ forward)

/-- A filter stands at the first accepted element from where its base stands on. -/
theorem Walks.filter (h : base.Walks l) (accepts : FeatureStructure → Bool) :
    (base.filter accepts).Walks (l.among accepts) :=
  Walks.settle (f := ⟨base, accepts⟩) h (Nat.le_refl _) true

section Rebinding

variable {f : Filtered (Iter σ)} {live : σ → Snapshot} {items : List FeatureStructure}

/-- A filter whose base is rebound goes on from where that comes to stand. -/
theorem Walks.rebind {r : Rebind} (h : (f.base.rebind live r).Walks l) {forward : Bool}
    (hr : r.onward = .ahead forward) :
    ((filtered f).rebind live r).Walks
      (Filtered.arrived forward (l.items.filter f.accepts)
        (Filtered.reached f.accepts forward l)) := by
  obtain ⟨base, accepts⟩ := f
  have hdepth : (base.rebind live r).depth ≤ base.depth := Nat.le_of_eq (depth_rebindTo ..)
  have hsettle := Walks.settle (f := ⟨base.rebind live r, accepts⟩) h hdepth forward
  rw [← hr] at hsettle
  exact hsettle

theorem Walks.rebind_first
    (h : (f.base.rebind live .first).Walks (ListCursor.step .first ⟨items, none⟩)) :
    ((filtered f).rebind live .first).Walks
      (ListCursor.step .first ⟨items.filter f.accepts, none⟩) := by
  have hrebind := h.rebind (show Rebind.first.onward = .ahead true from rfl)
  rwa [ListCursor.items_step, Filtered.arrived_end _ _ (.inl ⟨rfl, rfl⟩) none] at hrebind

theorem Walks.rebind_last
    (h : (f.base.rebind live .last).Walks (ListCursor.step .last ⟨items, none⟩)) :
    ((filtered f).rebind live .last).Walks
      (ListCursor.step .last ⟨items.filter f.accepts, none⟩) := by
  have hrebind := h.rebind (show Rebind.last.onward = .ahead false from rfl)
  rwa [ListCursor.items_step, Filtered.arrived_end _ _ (.inr ⟨rfl, rfl⟩) none] at hrebind

theorem Walks.rebind_toward {target : FeatureStructure}
    (h : (f.base.rebind live (.toward target)).Walks l) :
    ((filtered f).rebind live (.toward target)).Walks (l.among f.accepts) :=
  h.rebind (show (Rebind.toward target).onward = .ahead true from rfl)

end Rebinding

/-! ### Runs of a filter -/

/-- A filter after any moves, with a list cursor over what it accepts. The base walks a list when
the filter is put there and whenever it is rebound. -/
inductive Filtering (accepts : FeatureStructure → Bool) : Iter σ → ListCursor → Prop
  /-- An iterator is put behind the condition. -/
  | filter {base : Iter σ} {l : ListCursor} (h : base.Walks l) :
      Filtering accepts (base.filter accepts) (l.among accepts)
  | step {it : Iter σ} {c : ListCursor} (h : Filtering accepts it c) (m : Step) :
      Filtering accepts (it.step m) (c.step m)
  /-- The base is rebound to its first element. -/
  | first {f : Filtered (Iter σ)} {c : ListCursor} (h : Filtering accepts (filtered f) c)
      {live : σ → Snapshot} {items : List FeatureStructure}
      (hbase : (f.base.rebind live .first).Walks (ListCursor.step .first ⟨items, none⟩)) :
      Filtering accepts ((filtered f).rebind live .first)
        (ListCursor.step .first ⟨items.filter accepts, none⟩)
  /-- The base is rebound to its last element. -/
  | last {f : Filtered (Iter σ)} {c : ListCursor} (h : Filtering accepts (filtered f) c)
      {live : σ → Snapshot} {items : List FeatureStructure}
      (hbase : (f.base.rebind live .last).Walks (ListCursor.step .last ⟨items, none⟩)) :
      Filtering accepts ((filtered f).rebind live .last)
        (ListCursor.step .last ⟨items.filter accepts, none⟩)
  /-- The base is rebound to a target. -/
  | toward {f : Filtered (Iter σ)} {c : ListCursor} (h : Filtering accepts (filtered f) c)
      {live : σ → Snapshot} {target : FeatureStructure} {l : ListCursor}
      (hbase : (f.base.rebind live (.toward target)).Walks l) :
      Filtering accepts ((filtered f).rebind live (.toward target)) (l.among accepts)

/-- No move takes a filter for another kind of iterator, or changes its condition. -/
theorem Filtering.exists_filtered (h : Filtering accepts it c) :
    ∃ f, it = filtered f ∧ f.accepts = accepts := by
  induction h with
  | filter h => exact ⟨_, rfl, rfl⟩
  | step h m ih =>
      obtain ⟨f, rfl, rfl⟩ := ih
      obtain ⟨base, accepts⟩ := f
      exact ⟨_, rfl, rfl⟩
  | @first f _ _ _ _ _ ih | @last f _ _ _ _ _ ih | @toward f _ _ _ _ _ _ ih =>
      obtain ⟨g, hf, rfl⟩ := ih
      obtain rfl : f = g := filtered.inj hf
      obtain ⟨base, accepts⟩ := f
      exact ⟨_, rfl, rfl⟩

/-- **A filter walks the accepted elements**, whatever moves it has made. -/
theorem Filtering.walks (h : Filtering accepts it c) : it.Walks c := by
  induction h with
  | filter h => exact h.filter accepts
  | step h m ih => exact ih.step m
  | @first f _ h _ _ hbase _ =>
      obtain ⟨g, hf, rfl⟩ := h.exists_filtered
      obtain rfl : f = g := filtered.inj hf
      exact Walks.rebind_first hbase
  | @last f _ h _ _ hbase _ =>
      obtain ⟨g, hf, rfl⟩ := h.exists_filtered
      obtain rfl : f = g := filtered.inj hf
      exact Walks.rebind_last hbase
  | @toward f _ h _ _ _ hbase _ =>
      obtain ⟨g, hf, rfl⟩ := h.exists_filtered
      obtain rfl : f = g := filtered.inj hf
      exact Walks.rebind_toward hbase

/-- Whatever a list cursor over accepted elements stands at is accepted. -/
theorem Filtering.accepted (h : Filtering accepts it c) {fs : FeatureStructure}
    (hget : it.get = .ok fs) : accepts fs = true := by
  obtain ⟨⟨base, accepts⟩, rfl, rfl⟩ := h.exists_filtered
  have hitems := h.walks.items
  have hmem : fs ∈ c.items := by
    rw [h.walks.get, ListCursor.get_eq_ok_iff] at hget
    obtain ⟨p, -, hp⟩ := Option.bind_eq_some_iff.mp hget
    exact List.mem_of_getElem? hp
  rw [hitems, bound] at hmem
  exact (List.mem_filter.mp hmem).2

/-- **A filter cannot be told from a list cursor over the accepted elements.** Whatever the base is
made of, as long as it walks a list, the filter stands where the list cursor stands, over what the
condition accepts of what the base is bound to, and is invalid or at an accepted element. It is put
at the first accepted element from where its base stands on, and a move to a target leads to the
first accepted element from where the base comes to stand. It walks a list itself, so that the same
holds of a filter behind it. -/
theorem filtering_spec :
    (∀ (it : Iter σ) (c : ListCursor), Filtering accepts it c →
      it.isValid = c.isValid ∧ it.get = c.get ∧
      (∃ f, it = filtered f ∧ c.items = f.base.bound.filter accepts) ∧
      (∀ fs, it.get = .ok fs → accepts fs = true) ∧ it.Walks c) ∧
    (∀ (base : Iter σ) (l : ListCursor), base.Walks l →
      (base.filter accepts).element? = l.remaining.find? accepts) ∧
    (∀ (f : Filtered (Iter σ)) (c : ListCursor), Filtering accepts (filtered f) c →
      ∀ (live : σ → Snapshot) (target : FeatureStructure) (l : ListCursor),
        (f.base.rebind live (.toward target)).Walks l →
        ((filtered f).rebind live (.toward target)).element? = l.remaining.find? accepts) := by
  refine ⟨fun it c h => ?_, fun base l h => ?_, fun f c h live target l hbase => ?_⟩
  · refine ⟨h.walks.isValid, h.walks.get, ?_, fun fs => h.accepted, h.walks⟩
    obtain ⟨⟨base, accepts⟩, rfl, rfl⟩ := h.exists_filtered
    exact ⟨_, rfl, h.walks.items⟩
  · rw [(h.filter accepts).element?, ListCursor.element?_among]
  · rw [(h.toward hbase).walks.element?, ListCursor.element?_among]

open Index.Sample (mark word)

/-- The merge over marks and words walks what they hold, in order. -/
theorem walks_merge :
    (merge Index.Sample.merge).Walks
      (ListCursor.step .first ⟨[mark 2 3, word 1 4, mark 0 5], none⟩) := by
  have htell := Index.coherent_sample.tellable Index.Sample.reachable_index.sound
    (show [⟨1⟩, ⟨2⟩].Nodup by decide)
  have hmarks : (Index.Sample.index.snapshot ⟨1⟩).elements = [mark 2 3, mark 0 5] := rfl
  have hwords : (Index.Sample.index.snapshot ⟨2⟩).elements = [word 1 4] := rfl
  have hlisting : Index.listing Index.Sample.index.definition Index.Sample.index.snapshot
      [⟨1⟩, ⟨2⟩] = [mark 2 3, word 1 4, mark 0 5] := by
    refine (htell.ascending_listing rfl).ext (show List.Pairwise _ _ by decide) fun a => ?_
    rw [Index.mem_listing]
    simp only [List.mem_cons, exists_eq_or_imp, hmarks, hwords, List.not_mem_nil]
    tauto
  have hstands := Index.stands_assemble (List.cons_ne_nil _ _) htell
  rw [hlisting] at hstands
  exact hstands.walks

/-- The marks of the merge: a step leads from the first one to the last one, past the word. -/
theorem filtering_sample :
    let it := (merge Index.Sample.merge).filter fun fs => fs.type == ⟨1⟩
    ∃ c, it.Walks c ∧ c.items = [mark 2 3, mark 0 5] ∧ it.element? = some (mark 2 3) ∧
      (it.step .next).get = .ok (mark 0 5) := by
  intro it
  obtain ⟨hrun, hput, -⟩ := @filtering_spec TypeCode fun fs => fs.type == ⟨1⟩
  have hit : Filtering (fun fs => fs.type == ⟨1⟩) it _ := .filter walks_merge
  exact ⟨_, (hrun it _ hit).2.2.2.2, rfl, hput _ _ walks_merge, (hrun _ _ (hit.step .next)).2.1⟩

end Iter
end FeatureIndex
