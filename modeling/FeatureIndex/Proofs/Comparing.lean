import FeatureIndex.Proofs.Filtering
import FeatureIndex.Proofs.Settled

/-!
# Iterators compare as they stand

What an iterator over sorted data is bound to ascends strictly by keys and id, whether its leaves
keep the order of keys and ids or one structure for each key (`Iter.OverSorted.ascending`). What a
coherent index hands out is of this form wherever it has an order (`Index.Coherent.overSorted`).

Since an iterator stands at an element of what it is bound to, it has one position there
(`Iter.Positioned`), and elements compare as their positions do. `Iter.compareTo_spec` says so of
any two copies of an iterator, whatever moves they have made.
-/

namespace FeatureIndex

/-- A list that an ordered set may keep by a comparator: in the order of keys and ids, or with one
structure for each key. -/
def Comparator.Keeps (c : Comparator) (l : List FeatureStructure) : Prop :=
  Ascending c.compareFully l ∨ Ascending c.compare l

/-- Where keys tell structures apart, so do keys and ids. -/
theorem Comparator.Keeps.ascending {c : Comparator} {l : List FeatureStructure} (h : c.Keeps l) :
    Ascending c.compareFully l := by
  rcases h with hfully | hkeys
  · exact hfully
  · refine hkeys.imp fun {a b} hab => ?_
    rw [Comparator.compareFully, hab]
    rfl

theorem Comparator.ordersLike_self (c : Comparator) : c.ordersLike c = true := by
  simp [ordersLike]

/-- Lists that have no id in common, nor twice in one of them, are separate. -/
theorem separate_of_nodup {c : Comparator} {ls : List (List FeatureStructure)}
    (h : (ls.flatten.map fun fs => fs.id).Nodup) : Separate c.compareFully ls := by
  rw [List.map_flatten, List.nodup_flatten] at h
  refine (List.pairwise_map.mp h.2).imp fun {l m} hlm a ha b hb heq => ?_
  have hid : a.id = b.id := StructureId.ext (Comparator.compareFully_eq_eq.mp heq).2
  exact hlm (List.mem_map_of_mem ha) (hid ▸ List.mem_map_of_mem hb)

namespace Iter

variable {σ : Type} {it : Iter σ} {c : Comparator}

/-! ### Iterators over sorted data -/

/-- A leaf that keeps the order of the comparator, a merge of such leaves that hold no two
structures of one id, or a filter over one of these. -/
inductive OverSorted (c : Comparator) : Iter σ → Prop
  | sorted {s : SortedCursor σ} (hc : s.comparator = c) (hs : c.Keeps s.cursor.view.elements) :
      OverSorted c (sorted s)
  | merge {m : Merge σ} (hc : m.comparator = c) (hs : ∀ l ∈ m.views, c.Keeps l)
      (hids : (m.views.flatten.map fun fs => fs.id).Nodup) : OverSorted c (merge m)
  | filtered {f : Filtered (Iter σ)} (hbase : OverSorted c f.base) : OverSorted c (filtered f)

namespace OverSorted

theorem comparator? (h : it.OverSorted c) : it.comparator? = some c := by
  induction h with
  | sorted hc hs => exact congrArg some hc
  | merge hc hs hids => exact congrArg some hc
  | filtered hbase ih => exact ih

theorem undivided (h : it.OverSorted c) : it.Undivided := by
  induction h with
  | sorted hc hs => trivial
  | merge hc hs hids => trivial
  | filtered hbase ih => exact ih

/-- **What an iterator over sorted data is bound to ascends** by keys and id. -/
theorem ascending (h : it.OverSorted c) : Ascending c.compareFully it.bound := by
  induction h with
  | sorted hc hs => exact hs.ascending
  | merge hc hs hids =>
      subst hc
      exact ascending_union (fun l hl => (hs l hl).ascending) (separate_of_nodup hids)
  | filtered hbase ih => exact ih.filter _

/-- Steps bind no leaf anew. -/
theorem preserves (d : Nat) :
    (walkTo d).Preserves fun s t : Iter σ => s.OverSorted c → t.OverSorted c := by
  induction d with
  | zero => exact ⟨fun _ => id, fun h _ => h⟩
  | succ d ih =>
      refine ⟨fun _ => id, fun {s t} h m hs => ?_⟩
      cases h hs with
      | @sorted s' hc hkeeps =>
          exact .sorted (s := s'.step m) hc (by rwa [SortedCursor.view_step])
      | @merge m' hc hs hids =>
          obtain ⟨hcomparator, hbinding⟩ := m'.binding_step m
          have hviews : (m'.step m).views = m'.views := by
            rw [Merge.views_eq, hbinding, ← Merge.views_eq]
          exact .merge (hcomparator.trans hc) (by rwa [hviews]) (by rwa [hviews])
      | @filtered f hbase =>
          exact .filtered (Filtered.preserved_skip ih (ih.step id m) m.onward _ hbase)

theorem step (h : it.OverSorted c) (m : Step) : (it.step m).OverSorted c :=
  (preserves it.depth).step id m h

theorem filter (h : it.OverSorted c) (accepts : FeatureStructure → Bool) :
    (it.filter accepts).OverSorted c :=
  .filtered (Filtered.preserved_skip (preserves it.depth) (fun _ => h) _ _ h)

end OverSorted

end Iter

/-! ### Iterators over an index -/

namespace Index

variable {ix : Index} {t : TypeCode} {withSubtypes : Bool} {it : Iter TypeCode}

theorem Sound.keeps (h : ix.Sound) (hkind : ix.definition.kind ≠ .bag) (t : TypeCode) :
    ix.definition.comparator.Keeps (ix.snapshot t).elements := by
  have hasc := ascending_snapshot h t
  rw [leafOrder] at hasc
  cases hd : ix.definition.kind with
  | sorted =>
      rw [hd] at hasc
      exact .inl hasc
  | set =>
      rw [hd] at hasc
      exact .inr hasc
  | bag => exact absurd hd hkind

/-- **What a coherent index hands out is over sorted data**, if it has an order at all. -/
theorem Coherent.overSorted (hc : ix.Coherent) (h : ix.Sound)
    (hok : ix.iterate t withSubtypes = .ok it) (horder : it.comparator? ≠ none) :
    it.OverSorted ix.definition.comparator := by
  have ht := mem_types_of_iterate hok
  rw [iterate_eq h ht, Except.ok.injEq] at hok
  subst hok
  obtain ⟨rest, hasked, -⟩ := exists_asked h ht withSubtypes
  have hus := nodup_asked h t withSubtypes
  rcases eq_singleton_or_two_le (hasked ▸ List.cons_ne_nil t rest) with ⟨u, hu⟩ | htwo
  · rw [hu, assemble, leafIter] at horder ⊢
    split at horder
    next hkind => exact .sorted rfl (h.keeps (by rw [hkind]; decide) u)
    next hkind => exact .sorted rfl (h.keeps (by rw [hkind]; decide) u)
    next => exact absurd rfl horder
  · rw [assemble_of_two htwo] at horder ⊢
    split at horder
    next hkind =>
      have hviews := views_startMerge ix.definition ix.snapshot (asked ix.system t withSubtypes)
      refine .merge rfl ?_ ?_
      · show ∀ l ∈ (startMerge _ _ _).views, _
        rw [hviews, List.forall_mem_map]
        exact fun u _ => h.keeps (by rw [hkind]; decide) u
      · show ((startMerge _ _ _).views.flatten.map _).Nodup
        rw [hviews, ← List.flatMap_def]
        refine (h.nodup_flatMap hus).map_on ?_
        intro a ha b hb hid
        obtain ⟨u, -, ha⟩ := List.mem_flatMap.mp ha
        obtain ⟨v, -, hb⟩ := List.mem_flatMap.mp hb
        exact hc.eq (h.mem_snapshot.mp ha).1 (h.mem_snapshot.mp hb).1 (congrArg StructureId.val hid)
    all_goals exact absurd rfl horder

end Index

namespace Iter

variable {σ : Type} {it a b : Iter σ} {c : Comparator}

/-! ### Copies -/

/-- What becomes of a copy of an iterator: it is moved, and rebound to whatever the stores hold at
the time. -/
inductive Copy (it : Iter σ) : Iter σ → Prop
  | here : Copy it it
  | step {a : Iter σ} (h : Copy it a) (m : Step) : Copy it (a.step m)
  | rebind {a : Iter σ} (h : Copy it a) (live : σ → Snapshot) (r : Rebind) :
      Copy it (a.rebind live r)

theorem Copy.made (ha : it.Copy a) (h : it.Made) : a.Made := by
  induction ha with
  | here => exact h
  | step _ m ih => exact ih.step m
  | rebind _ live r ih => exact ih.rebind live r

theorem comparator?_still (f : σ → Snapshot → Snapshot) :
    ∀ it : Iter σ, (still f it).comparator? = it.comparator?
  | sorted _ | bag _ | merge _ => rfl
  | concat ⟨_, _, _, _⟩ => rfl
  | filtered ⟨base, _⟩ => comparator?_still f base

/-- No move changes the order of an iterator. -/
theorem Copy.comparator? (ha : it.Copy a) : a.comparator? = it.comparator? := by
  induction ha with
  | here => rfl
  | @step a _ m ih => rw [← comparator?_still (fun _ v => v), still_step, comparator?_still, ih]
  | @rebind a _ live r ih =>
      have hrebound := congrArg Iter.comparator? (a.rebound_rebind live r live)
      rw [rebound, rebound, comparator?_still, comparator?_still] at hrebound
      exact hrebound.trans ih

/-! ### Positions -/

/-- The iterator stands at position `i` of what it is bound to. -/
def At (it : Iter σ) (i : Nat) : Prop := ∃ fs, it.get = .ok fs ∧ it.bound[i]? = some fs

/-- The iterator has exactly one position where it is valid; as far as it walks a list, that is
where it has walked to. -/
structure Positioned (it : Iter σ) : Prop where
  valid : it.isValid = true ↔ ∃ i, it.At i
  unique : ∀ i j, it.At i → it.At j → i = j
  walks : ∀ l, it.Walks l → ∀ i, it.At i ↔ l.position = some i

theorem Made.positioned (h : it.Made) (hasc : Ascending c.compareFully it.bound) :
    it.Positioned := by
  have hunique : ∀ i j, it.At i → it.At j → i = j := by
    rintro i j ⟨fs, hget, hi⟩ ⟨fs', hget', hj⟩
    cases hget.symm.trans hget'
    have hlt := (List.getElem?_eq_some_iff.mp hi).1
    exact (List.getElem?_inj hlt hasc.nodup).mp (hi.trans hj.symm)
  refine ⟨⟨?_, ?_⟩, hunique, ?_⟩
  · intro hv
    obtain ⟨fs, -, hget⟩ := h.placed.guarded.valid hv
    obtain ⟨i, hi⟩ := List.getElem?_of_mem (h.mem_bound hget)
    exact ⟨i, fs, hget, hi⟩
  · rintro ⟨i, fs, hget, -⟩
    exact (get_eq_ok_iff.mp hget).1
  · intro l hl i
    have hposition : ∀ p, l.position = some p → it.At p := by
      intro p hp
      have hlt := hl.inRange p hp
      refine ⟨l.items[p], ?_, ?_⟩
      · rw [hl.get, ListCursor.get_eq_ok_iff, ListCursor.element?, hp]
        exact List.getElem?_eq_getElem hlt
      · rw [← hl.items, List.getElem?_eq_getElem hlt]
    refine ⟨fun hi => ?_, hposition i⟩
    obtain ⟨fs, hget, -⟩ := id hi
    rw [hl.get, ListCursor.get_eq_ok_iff] at hget
    obtain ⟨p, hp, -⟩ := Option.bind_eq_some_iff.mp hget
    rw [hp, hunique p i (hposition p hp) hi]

/-- **A rebinding leads into a list**, wherever the cursors stood before. -/
theorem exists_walks_rebind (live : σ → Snapshot) (r : Rebind) :
    ∀ it : Iter σ, it.Undivided → (it.rebound live).Sound → ∃ l, (it.rebind live r).Walks l
  | sorted s, _, _ => ⟨_, walks_sorted (SortedCursor.inRange_rebind live r s)⟩
  | bag b, _, _ => ⟨_, walks_bag (BagCursor.inRange_rebind live r b)⟩
  | merge m, _, hs => ⟨_, Stands.walks (Merge.stands_rebind live m hs r)⟩
  | filtered ⟨base, accepts⟩, hu, hs => by
      obtain ⟨forward, honward⟩ := r.exists_onward
      obtain ⟨l, hl⟩ := exists_walks_rebind live r base hu hs
      exact ⟨_, Walks.rebind (f := ⟨base, accepts⟩) hl honward⟩

/-! ### Comparing -/

/-- What a comparison should come to: how the positions of two iterators compare, or a refusal where
one of them stands nowhere. -/
structure Tells (a b : Iter σ) (outcome : Except Error Ordering) : Prop where
  positions : ∀ i j, a.At i → b.At j → outcome = .ok (compare i j)
  invalid : a.isValid = false ∨ b.isValid = false → outcome = .error .invalidIterator

/-- **Elements of one ascending list compare as their positions do.** -/
theorem tells_compareTo {p q : OrderedIter σ} (hp : p.iter.Placed) (hq : q.iter.Placed)
    (hc : q.comparator = p.comparator)
    (hasc : Ascending p.comparator.compareFully p.iter.bound)
    (hsame : q.iter.bound = p.iter.bound) : Tells p.iter q.iter (p.compareTo q) := by
  have horders : p.comparator.ordersLike q.comparator = true := by
    rw [hc]
    exact p.comparator.ordersLike_self
  rw [OrderedIter.compareTo_eq_of_ordersLike horders]
  constructor
  · rintro i j ⟨x, hx, hi⟩ ⟨y, hy, hj⟩
    rw [hsame] at hj
    obtain ⟨hlt, rfl⟩ := List.getElem?_eq_some_iff.mp hi
    obtain ⟨hlt', rfl⟩ := List.getElem?_eq_some_iff.mp hj
    rw [hx, hy, ← hasc.compare_getElem hlt hlt']
    rfl
  · intro hinvalid
    cases hv : p.iter.isValid with
    | false =>
        rw [hp.guarded.invalid hv]
        rfl
    | true =>
        obtain ⟨x, -, hx⟩ := hp.guarded.valid hv
        have hv' := hinvalid.resolve_left (by rw [hv]; decide)
        rw [hx, hq.guarded.invalid hv']
        rfl

/-- **Copies of an iterator over sorted data compare as they stand.** Whatever moves the two copies
have made, as long as they are bound to one list, each is valid exactly where it has a position in
that list, it has one position only, and that is where it has walked to. The comparison of the
copies is that of their positions, and it is refused where one of them is invalid, be it asked of
iterators of any kind or of iterators that have an order. After a rebinding, a copy walks a list,
wherever its cursors stood before. -/
theorem compareTo_spec (h : it.Made) (ha : it.Copy a) (hb : it.Copy b) (hsorted : a.OverSorted c)
    (hsame : b.bound = a.bound) :
    a.Positioned ∧ b.Positioned ∧ Tells a b (a.compareTo b) ∧
    (∃ p q : OrderedIter σ, p.iter = a ∧ q.iter = b ∧ Tells a b (p.compareTo q)) ∧
    ∀ live r, (a.rebound live).Sound → ∃ l, (a.rebind live r).Walks l := by
  have hasc := hsorted.ascending
  have hasc' : Ascending c.compareFully b.bound := hsame ▸ hasc
  have hc := hsorted.comparator?
  have hd : b.comparator? = some c := by rw [hb.comparator?, ← ha.comparator?, hc]
  have htells := tells_compareTo (p := ⟨a, c, hc⟩) (q := ⟨b, c, hd⟩) (ha.made h).placed
    (hb.made h).placed rfl hasc hsame
  refine ⟨(ha.made h).positioned hasc, (hb.made h).positioned hasc', ?_,
    ⟨_, _, rfl, rfl, htells⟩, fun live r => exists_walks_rebind live r a hsorted.undivided⟩
  rw [compareTo_eq hc hd]
  exact htells

open Index.Sample (mark definition)

/-- The marks of the merge over marks and words: from the first one, a step leads past the word to
the last one, and another one leads out. -/
theorem compareTo_marks :
    let it := (merge Index.Sample.merge).filter fun fs => fs.type == ⟨1⟩
    let b := it.step .next
    let gone := b.step .next
    it.OverSorted definition.comparator ∧ it.At 0 ∧ b.At 1 ∧
      it.compareTo b = .ok .lt ∧ b.compareTo it = .ok .gt ∧ b.compareTo b = .ok .eq ∧
      gone.compareTo it = .error .invalidIterator := by
  intro it b gone
  have hok : Index.Sample.index.iterate ⟨1⟩ true = .ok (merge Index.Sample.merge) := rfl
  have hmade : it.Made := (Index.made_iterate hok).filter _
  have hsorted : it.OverSorted definition.comparator :=
    (Index.coherent_sample.overSorted Index.Sample.reachable_index.sound hok nofun).filter _
  have hwalks := walks_merge.filter fun fs => fs.type == ⟨1⟩
  have hb : it.Copy b := .step .here .next
  -- each time the two copies are bound to one list
  obtain ⟨hpos, hpos', hright, -⟩ := compareTo_spec hmade .here hb hsorted (bound_step .next it)
  obtain ⟨-, -, hleft, -⟩ :=
    compareTo_spec hmade hb .here (hsorted.step .next) (bound_step .next it).symm
  obtain ⟨-, -, hsame, -⟩ := compareTo_spec hmade hb hb (hsorted.step .next) rfl
  obtain ⟨-, -, hgone, -⟩ := compareTo_spec hmade (hb.step .next) .here
    ((hsorted.step .next).step .next) ((bound_step .next b).trans (bound_step .next it)).symm
  have hat : it.At 0 := (hpos.walks _ hwalks 0).mpr rfl
  have hat' : b.At 1 := (hpos'.walks _ (hwalks.step .next) 1).mpr rfl
  exact ⟨hsorted, hat, hat', hright.positions 0 1 hat hat', hleft.positions 1 0 hat' hat,
    hsame.positions 1 1 hat' hat', hgone.invalid (.inl rfl)⟩

end Iter
end FeatureIndex
