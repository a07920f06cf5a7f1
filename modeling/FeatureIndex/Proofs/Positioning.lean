import FeatureIndex.Proofs.Handed
import FeatureIndex.Proofs.Navigation
import Mathlib.Data.List.TakeWhile

/-!
# Positioning by key

`OrderedSet.lowerBound` counts the elements whose keys are less, in either regime and for whatever
probe: the order of the set may go by ids too, but keys never descend in it. An iterator that moves
to a target lands accordingly.

That a leaf does so is bisection again. A merge has each of its cursors find a place by itself, and
what these have before them then has to be what is left of the order in which the merge goes. This
is so (`Merge.flowing_dropWhile`) even where elements of several lists are equal, when no list
cursor can be followed back and forth: going forward, all that comes before the key is passed over
before anything else is reached.

`positioning_spec` puts this together.
-/

namespace FeatureIndex

open Std (TransCmp)

/-! ### Ordered sets -/

namespace OrderedSet

variable {s : OrderedSet} {probe : FeatureStructure}

/-- Sets that can come up: new ones, ones that are made of ascending elements, and what changes and
cloning make of them. -/
inductive Reachable : OrderedSet → Prop
  | empty (comparator : Comparator) (regime : Regime) (owner capacity : Nat) :
      Reachable (.empty comparator regime owner capacity)
  | ofAscending {comparator : Comparator} {regime : Regime} {owner : Nat}
      {elements : List FeatureStructure} {generation : UInt64} {s : OrderedSet}
      (hok : ofAscending comparator regime owner elements generation = .ok s) : Reachable s
  | change {s : OrderedSet} (h : Reachable s) (c : Change) : Reachable (s.apply c)
  | cloned {s : OrderedSet} (h : Reachable s) (owner : Nat) : Reachable (s.cloned owner)

theorem Reachable.sound (h : s.Reachable) : s.Sound := by
  induction h with
  | empty comparator regime owner capacity => exact sound_empty ..
  | @ofAscending _ _ _ _ _ s hok =>
      simp only [OrderedSet.ofAscending] at hok
      obtain ⟨⟨⟩, hcheck, hs⟩ := bind_eq_ok.mp hok
      cases hs
      exact check_eq_ok.mp hcheck
  | change _ c ih => exact (sound_apply ih c).1
  | cloned _ _ ih => exact ih

/-- Keys do not descend, whatever the regime orders by. -/
theorem compare_isLE {a b : FeatureStructure} (h : s.order a b = .lt) :
    (s.comparator.compare a b).isLE := by
  unfold order at h
  split at h
  · exact Comparator.compare_isLE_of_compareFully (by rw [h]; rfl)
  · rw [h]
    rfl

theorem cuts_key (h : s.Sound) (probe : FeatureStructure) :
    Cuts (fun e => s.comparator.compare e probe == .lt) s.elements := by
  refine Lower.cuts (fun a b hab hb => ?_) h
  rw [beq_iff_eq] at hb ⊢
  exact TransCmp.lt_of_isLE_of_lt (compare_isLE hab) hb

/-- **The lower bound counts the elements whose keys are less.** -/
theorem lowerBound_eq (h : s.Sound) (probe : FeatureStructure) :
    s.lowerBound probe = s.elements.countP fun e => s.comparator.compare e probe == .lt :=
  Bisection.splitPoint_eq_countP (cuts_key h probe) _

/-- Exactly the elements before the lower bound have lesser keys. -/
theorem lt_lowerBound_iff (h : s.Sound) (probe : FeatureStructure) {i : Nat} {e : FeatureStructure}
    (he : s.get? i = some e) : i < s.lowerBound probe ↔ s.comparator.compare e probe = .lt := by
  obtain ⟨hi, rfl⟩ := List.getElem?_eq_some_iff.mp he
  rw [lowerBound_eq h, ← getElem_iff_lt_countP (cuts_key h probe) hi, beq_iff_eq]

/-- If any element has the key of the probe, the one at the lower bound has it. -/
theorem compare_lowerBound (h : s.Sound) {e : FeatureStructure} (he : e ∈ s.elements)
    (heq : s.comparator.compare e probe = .eq) :
    ∃ a, s.get? (s.lowerBound probe) = some a ∧ s.comparator.compare a probe = .eq := by
  obtain ⟨j, hj, rfl⟩ := List.getElem_of_mem he
  have hle : s.lowerBound probe ≤ j := by
    rw [← Nat.not_lt, lt_lowerBound_iff h probe (List.getElem?_eq_getElem hj), heq]
    exact nofun
  have hlt : s.lowerBound probe < s.elements.length := Nat.lt_of_le_of_lt hle hj
  have hget : s.get? (s.lowerBound probe) = some s.elements[s.lowerBound probe] :=
    List.getElem?_eq_getElem hlt
  refine ⟨_, hget, ?_⟩
  -- its key is not less than that of the probe, and not greater than that of the given element
  have hnot := (lt_lowerBound_iff h probe hget).not.mp (Nat.lt_irrefl _)
  have hisLE : (s.comparator.compare s.elements[s.lowerBound probe] s.elements[j]).isLE := by
    rcases Nat.eq_or_lt_of_le hle with heq | hlt'
    · simp only [heq, Std.ReflCmp.compare_self, Ordering.isLE]
    · exact compare_isLE (List.pairwise_iff_getElem.mp h _ _ hlt hj hlt')
  have hisLE' := TransCmp.isLE_trans hisLE (by rw [heq]; rfl)
  revert hnot hisLE'
  cases s.comparator.compare s.elements[s.lowerBound probe] probe <;> simp

/-- **A key is found at the lower bound**, if any element has it. -/
theorem firstWithKey?_eq_some (h : s.Sound) (probe : FeatureStructure) :
    s.firstWithKey? probe = some (s.lowerBound probe) ↔
      ∃ e ∈ s.elements, s.comparator.compare e probe = .eq := by
  rw [firstWithKey?]
  constructor
  · intro hfound
    split at hfound
    next e he =>
      split at hfound
      next heq => exact ⟨e, List.mem_of_getElem? he, heq⟩
      next => cases hfound
    next => cases hfound
  · rintro ⟨e, he, heq⟩
    obtain ⟨a, ha, hkey⟩ := compare_lowerBound h he heq
    simp only [ha, hkey, ↓reduceIte]

theorem firstWithKey?_eq_none (h : s.Sound) (probe : FeatureStructure) :
    s.firstWithKey? probe = none ↔
      ∀ e ∈ s.elements, s.comparator.compare e probe ≠ .eq := by
  constructor
  · intro hnone e he heq
    rw [(firstWithKey?_eq_some h probe).mpr ⟨e, he, heq⟩] at hnone
    cases hnone
  · intro hne
    rw [firstWithKey?]
    split
    next e he => rw [if_neg (hne e (List.mem_of_getElem? he))]
    next => rfl

end OrderedSet

/-! ### Merges from where their cursors stand -/

namespace SortedCursor

variable {σ : Type}

/-- The elements from where a cursor stands on. -/
def remaining (s : SortedCursor σ) : List FeatureStructure := s.cursor.list.remaining

theorem element?_eq_head? (s : SortedCursor σ) : s.element? = s.remaining.head? :=
  s.cursor.list.element?_eq_head?

theorem remaining_step_next (s : SortedCursor σ) :
    (s.step .next).remaining = s.remaining.tail := by
  rw [remaining, s.list_step, ListCursor.remaining_step_next]
  rfl

theorem element?_congr {s s' : SortedCursor σ} (h : s.remaining = s'.remaining) :
    s.element? = s'.element? := by
  rw [s.element?_eq_head?, s'.element?_eq_head?, h]

/-- Cursors that are ahead of others by what a condition makes them pass over. -/
def Ahead (below : FeatureStructure → Bool) (s s' : SortedCursor σ) : Prop :=
  s'.remaining = s.remaining.dropWhile below

theorem ahead_nothing {s s' : SortedCursor σ} (h : s.remaining = s'.remaining) :
    Ahead (fun _ => false) s s' := by
  rw [Ahead, h]
  cases s'.remaining <;> rfl

end SortedCursor

namespace Merge

open SortedCursor (Ahead)

variable {σ : Type} {c : Comparator} {subs subs' : List (SortedCursor σ)} {i : Nat}

/-- A merge that goes forward from where its cursors stand. -/
def flow (c : Comparator) (subs : List (SortedCursor σ)) : Merge σ :=
  selected ⟨subs, c, none, true⟩ true

/-- How many elements some cursors have before them, together. -/
def left (subs : List (SortedCursor σ)) : Nat := (subs.flatMap SortedCursor.remaining).length

theorem left_cons (s : SortedCursor σ) (subs : List (SortedCursor σ)) :
    left (s :: subs) = s.remaining.length + left subs := by
  rw [left, List.flatMap_cons, List.length_append, left]

/-- A step of one cursor that stands at an element leaves one element less. -/
theorem left_modify {s : SortedCursor σ} {x : FeatureStructure} (hs : subs[i]? = some s)
    (hx : s.element? = some x) :
    left (subs.modify i (SortedCursor.step .next)) + 1 = left subs := by
  induction subs generalizing i with
  | nil => cases hs
  | cons t rest ih =>
      cases i with
      | zero =>
          cases hs
          have hlength : (s.step .next).remaining.length + 1 = s.remaining.length := by
            rw [s.element?_eq_head?, List.head?_eq_some_iff] at hx
            obtain ⟨l, hl⟩ := hx
            rw [s.remaining_step_next, hl]
            rfl
          rw [List.modify_zero_cons, left_cons, left_cons]
          omega
      | succ i =>
          have hrest := ih (i := i) hs
          rw [List.modify_succ_cons, left_cons, left_cons]
          omega

theorem step_flow (hi : select c .lt subs = some i) :
    (flow c subs).step .next = flow c (subs.modify i (SortedCursor.step .next)) := by
  have hcurrent : (flow c subs).current = some i := hi
  simp only [step, hcurrent]
  rfl

theorem element?_flow {s : SortedCursor σ} (hi : select c .lt subs = some i)
    (hs : subs[i]? = some s) : (flow c subs).element? = s.element? := by
  have hcurrent : (flow c subs).current = some i := hi
  have hsub : (flow c subs).subs[i]? = some s := hs
  rw [element?, hcurrent, Option.bind_some, hsub, Option.bind_some]

/-- The elements that a merge goes through, up to a limit. -/
def flowing (c : Comparator) (subs : List (SortedCursor σ)) (limit : Nat) :
    List FeatureStructure :=
  ((Iter.walkTo 1).collect limit (.merge (flow c subs))).1

theorem flowing_none (hnone : select c .lt subs = none) (limit : Nat) :
    flowing c subs limit = [] := by
  have hvalid : (Iter.walkTo 1).isValid (.merge (flow c subs)) = false :=
    congrArg Option.isSome hnone
  rw [flowing]
  cases limit with
  | zero => rfl
  | succ limit => rw [Walk.collect, hvalid]

theorem flowing_some {s : SortedCursor σ} {x : FeatureStructure}
    (hi : select c .lt subs = some i) (hs : subs[i]? = some s) (hx : s.element? = some x)
    (limit : Nat) : flowing c subs (limit + 1) =
      x :: flowing c (subs.modify i (SortedCursor.step .next)) limit := by
  have hvalid : (Iter.walkTo 1).isValid (.merge (flow c subs)) = true :=
    congrArg Option.isSome hi
  have helement : (Iter.walkTo 1).element? (.merge (flow c subs)) = some x :=
    (element?_flow hi hs).trans hx
  have hstep : (Iter.walkTo 1).step .next (.merge (flow c subs)) =
      .merge (flow c (subs.modify i (SortedCursor.step .next))) :=
    congrArg Iter.merge (step_flow hi)
  rw [flowing, Walk.collect, hvalid, helement, hstep]
  rfl

/-- Going forward, a merge goes on with an element that no other one comes before, or nothing is
left. -/
theorem exists_least (c : Comparator) (subs : List (SortedCursor σ)) :
    (select c .lt subs = none ∧ ∀ s ∈ subs, s.remaining = []) ∨
    ∃ i s x, select c .lt subs = some i ∧ subs[i]? = some s ∧ s.element? = some x ∧
      ∀ t ∈ subs, ∀ y, t.element? = some y → (c.compareFully x y).isLE := by
  rcases select_wanted c true subs with ⟨hnone, hall⟩ | ⟨i, s, x, hi, hs, hx, hleast⟩
  · refine .inl ⟨hnone, fun s hs => ?_⟩
    rw [← List.head?_eq_none_iff, ← s.element?_eq_head?]
    exact hall s hs
  · refine .inr ⟨i, s, x, hi, hs, hx, fun t ht y hy => ?_⟩
    exact Std.OrientedCmp.isLE_of_isGE (Ordering.isGE_iff_ne_lt.mpr (hleast t ht y hy))

theorem flowing_of_nil (h : ∀ s ∈ subs, s.remaining = []) (limit : Nat) :
    flowing c subs limit = [] := by
  rcases exists_least c subs with ⟨hnone, -⟩ | ⟨i, s, x, -, hs, hx, -⟩
  · exact flowing_none hnone limit
  · rw [s.element?_eq_head?, h s (List.mem_of_getElem? hs)] at hx
    cases hx

theorem nil_of_left (h : left subs = 0) : ∀ s ∈ subs, s.remaining = [] :=
  List.flatMap_eq_nil_iff.mp (List.length_eq_zero_iff.mp h)

variable {below : FeatureStructure → Bool}

theorem nil_of_ahead (h : List.Forall₂ (Ahead below) subs subs')
    (hnil : ∀ s ∈ subs, s.remaining = []) : ∀ s' ∈ subs', s'.remaining = [] := by
  induction h with
  | nil => exact nofun
  | cons hs _ ih =>
      obtain ⟨hnil, hrest⟩ := List.forall_mem_cons.mp hnil
      rw [Ahead, hnil] at hs
      exact List.forall_mem_cons.mpr ⟨hs, ih hrest⟩

/-- A cursor that steps over what is passed over is still behind. -/
theorem forall₂_ahead_modify (h : List.Forall₂ (Ahead below) subs subs') {s : SortedCursor σ}
    {x : FeatureStructure} (hs : subs[i]? = some s) (hx : s.element? = some x)
    (hpass : below x = true) :
    List.Forall₂ (Ahead below) (subs.modify i (SortedCursor.step .next)) subs' := by
  induction h generalizing i with
  | nil => cases hs
  | @cons t t' _ _ ht hrest ih =>
      cases i with
      | zero =>
          cases hs
          rw [s.element?_eq_head?, List.head?_eq_some_iff] at hx
          obtain ⟨l, hl⟩ := hx
          refine .cons ?_ hrest
          rw [Ahead, ht, s.remaining_step_next, hl, List.dropWhile_cons_of_pos hpass,
            List.tail_cons]
      | succ i => exact .cons ht (ih hs)

/-- Cursors that have the same before them, one by one. -/
abbrev Alike (subs subs' : List (SortedCursor σ)) : Prop :=
  List.Forall₂ (fun s s' => s.remaining = s'.remaining) subs subs'

theorem Alike.select_eq (h : Alike subs subs') (c : Comparator) :
    select c .lt subs = select c .lt subs' :=
  select_congr c .lt (h.imp fun _ _ => SortedCursor.element?_congr)

theorem Alike.step_next (h : Alike subs subs') (i : Nat) :
    Alike (subs.modify i (SortedCursor.step .next)) (subs'.modify i (SortedCursor.step .next)) :=
  forall₂_modify h (fun s s' hs => by rw [s.remaining_step_next, s'.remaining_step_next, hs]) i

/-- A merge goes through what its cursors have before them, wherever that is found, and stops where
nothing is left. -/
theorem flowing_congr (h : Alike subs subs')
    {limit limit' : Nat} (hlimit : left subs ≤ limit) (hlimit' : left subs' ≤ limit') :
    flowing c subs limit = flowing c subs' limit' := by
  induction limit generalizing subs subs' limit' with
  | zero =>
      have hnil := nil_of_left (Nat.eq_zero_of_le_zero hlimit)
      have hahead := h.imp fun _ _ => SortedCursor.ahead_nothing
      rw [flowing_of_nil hnil, flowing_of_nil (nil_of_ahead hahead hnil)]
  | succ limit ih =>
      rcases exists_least c subs with ⟨hnone, -⟩ | ⟨i, s, x, hi, hs, hx, -⟩
      · rw [flowing_none hnone, flowing_none ((h.select_eq c).symm.trans hnone)]
      · obtain ⟨s', hs', hx'⟩ : ∃ s', subs'[i]? = some s' ∧ s'.element? = some x := by
          have hrel := rel_getElem? h i
          generalize subs'[i]? = o at hrel
          rw [hs] at hrel
          cases hrel with
          | some hss' => exact ⟨_, rfl, (SortedCursor.element?_congr hss').symm.trans hx⟩
        have hstep := left_modify hs hx
        have hstep' := left_modify hs' hx'
        obtain ⟨limit', rfl⟩ : ∃ k, limit' = k + 1 := ⟨limit' - 1, by omega⟩
        rw [flowing_some hi hs hx, flowing_some ((h.select_eq c).symm.trans hi) hs' hx']
        exact congrArg (x :: ·) (ih (h.step_next i) (by omega) (by omega))

/-- **Whatever comes first is passed over before anything else is reached**: where the cursors of a
merge pass over what meets a condition, the merge does. -/
theorem flowing_dropWhile
    (hbelow : ∀ a b, (c.compareFully a b).isLE → below b = true → below a = true)
    (h : List.Forall₂ (Ahead below) subs subs') {limit limit' : Nat} (hlimit : left subs ≤ limit)
    (hlimit' : left subs' ≤ limit') :
    (flowing c subs limit).dropWhile below = flowing c subs' limit' := by
  induction limit generalizing subs with
  | zero =>
      have hnil := nil_of_left (Nat.eq_zero_of_le_zero hlimit)
      rw [flowing_of_nil hnil, flowing_of_nil (nil_of_ahead h hnil)]
      rfl
  | succ limit ih =>
      rcases exists_least c subs with ⟨-, hnil⟩ | ⟨i, s, x, hi, hs, hx, hleast⟩
      · rw [flowing_of_nil hnil, flowing_of_nil (nil_of_ahead h hnil)]
        rfl
      · have hstep := left_modify hs hx
        by_cases hpass : below x = true
        · -- the least element is passed over, as it is by its cursor
          rw [flowing_some hi hs hx, List.dropWhile_cons_of_pos hpass]
          exact ih (forall₂_ahead_modify h hs hx hpass) (by omega)
        · -- nothing is passed over, as nothing comes before the least element
          have hkept : ∀ t ∈ subs, t.remaining.dropWhile below = t.remaining := by
            intro t ht
            cases hrem : t.remaining with
            | nil => rfl
            | cons y l =>
                refine List.dropWhile_cons_of_neg fun hy => hpass (hbelow x y ?_ hy)
                exact hleast t ht y (by rw [t.element?_eq_head?, hrem]; rfl)
          have hsame := (List.forall₂_and_left subs subs').mpr ⟨hkept, h⟩
          rw [← flowing_congr (hsame.imp fun _ _ hs => (hs.2.trans hs.1).symm) hlimit hlimit',
            flowing_some hi hs hx, List.dropWhile_cons_of_neg hpass]

end Merge

/-! ### What an iterator has before it -/

namespace Iter

variable {σ : Type} {it : Iter σ} {c : Comparator} {subs : List (SortedCursor σ)}

/-- What an iterator has before it: it stands at the first of these elements, and collects them. -/
structure Faces (it : Iter σ) (l : List FeatureStructure) : Prop where
  rest : it.rest.1 = l
  isValid : it.isValid = l.head?.isSome
  element? : it.element? = l.head?

theorem Faces.get {l : List FeatureStructure} (h : it.Faces l) :
    it.get = match l.head? with
      | some fs => .ok fs
      | none => .error .invalidIterator := by
  rw [Iter.get, h.isValid, h.element?]
  cases l.head? <;> rfl

theorem Stands.faces {l : ListCursor} (h : it.Stands l) : it.Faces l.remaining where
  rest := by
    have hspan := it.length_bound_le_span
    rw [← h.items] at hspan
    rw [Iter.rest, Iter.take, walk, (follows_walkTo _).collect_eq h, List.take_of_length_le]
    exact Nat.le_trans l.length_remaining_le hspan
  isValid := by rw [h.isValid, h.inRange.isValid_eq, l.element?_eq_head?]
  element? := ((follows_walkTo _).element? h).trans l.element?_eq_head?

theorem left_le_span (c : Comparator) (subs : List (SortedCursor σ)) :
    Merge.left subs ≤ (merge (Merge.flow c subs)).span := by
  have hsize : Merge.left subs ≤ Snapshot.totalSize (subs.map fun s => s.cursor.view) := by
    induction subs with
    | nil => exact Nat.le_refl 0
    | cons s rest ih =>
        rw [Merge.left_cons, List.map_cons, Snapshot.totalSize]
        exact Nat.add_le_add s.cursor.list.length_remaining_le ih
  rw [span, leaves, List.map_map]
  exact Nat.le_trans hsize (Nat.le_add_right ..)

/-- A merge stands at the first of the elements that it goes through. -/
theorem faces_flow (c : Comparator) (subs : List (SortedCursor σ)) :
    (merge (Merge.flow c subs)).Faces
      (Merge.flowing c subs (merge (Merge.flow c subs)).span) := by
  rcases Merge.exists_least c subs with ⟨hnone, -⟩ | ⟨i, s, x, hi, hs, hx, -⟩
  · refine ⟨rfl, ?_, ?_⟩ <;> rw [Merge.flowing_none hnone]
    · exact congrArg Option.isSome hnone
    · show (Merge.flow c subs).element? = none
      have hcurrent : (Merge.flow c subs).current = none := hnone
      rw [Merge.element?, hcurrent, Option.bind_none]
  · obtain ⟨limit, hlimit⟩ : ∃ k, (merge (Merge.flow c subs)).span = k + 1 := by
      have hspan := left_le_span c subs
      have hstep := Merge.left_modify hs hx
      exact ⟨(merge (Merge.flow c subs)).span - 1, by omega⟩
    refine ⟨rfl, ?_, ?_⟩ <;> rw [hlimit, Merge.flowing_some hi hs hx]
    · exact congrArg Option.isSome hi
    · exact (Merge.element?_flow hi hs).trans hx

end Iter

/-! ### Iterators that an index has handed out -/

namespace Index

variable {ix : Index} {us : List TypeCode} {target : FeatureStructure}

/-- The order in which a merge goes is that of keys first. -/
theorem passes_of_isLE {d : Definition} (hkind : d.kind = .sorted) {a b : FeatureStructure}
    (hab : (d.comparator.compareFully a b).isLE) (hb : passes d target b = true) :
    passes d target a = true := by
  rw [passes_of_ne_bag (by rw [hkind]; decide), beq_iff_eq] at hb ⊢
  exact TransCmp.lt_of_isLE_of_lt (Comparator.compare_isLE_of_compareFully hab) hb

/-- The cursors of a merge, after a rebinding. -/
def rebindAll (ix : Index) (us : List TypeCode) (r : Rebind) : List (SortedCursor TypeCode) :=
  (startMerge ix.definition ix.snapshot us).subs.map (SortedCursor.rebind ix.snapshot r)

/-- A leaf that rebinds to a target passes over what comes first. -/
theorem forall₂_rebindAll (h : ix.Sound) (hkind : ix.definition.kind = .sorted)
    (us : List TypeCode) (target : FeatureStructure) :
    List.Forall₂ (SortedCursor.Ahead (passes ix.definition target)) (rebindAll ix us .first)
      (rebindAll ix us (.toward target)) := by
  simp only [rebindAll, startMerge, List.forall₂_map_left_iff, List.forall₂_map_right_iff]
  refine List.forall₂_same.mpr fun u _ => ?_
  have hleaf := stands_leafIter_toward h target u (ix.snapshot u)
  rw [leafIter] at hleaf
  simp only [hkind] at hleaf
  obtain ⟨hlist, -⟩ := hleaf
  rw [SortedCursor.Ahead]
  refine (congrArg ListCursor.remaining hlist).trans ?_
  rw [ListCursor.remaining_after (cuts_passes h target u)]
  exact congrArg _ (ListCursor.remaining_step_first ⟨_, none⟩).symm

/-- **What an iterator has before it at a target** is what it would go through from its first
element on, less what comes before the target. -/
theorem faces_toward (h : ix.Sound) (hus : us ≠ [])
    (hwhole : ix.definition.kind = .sorted ∨ us.length = 1) (target : FeatureStructure) :
    let it := assemble ix.definition ix.snapshot us
    (it.rebind ix.snapshot (.toward target)).Faces
      ((it.collect ix.snapshot).1.dropWhile (passes ix.definition target)) := by
  intro it
  rcases eq_singleton_or_two_le hus with ⟨u, rfl⟩ | htwo
  · obtain ⟨hsound, hbound⟩ := rebound_leafIter ix.definition ix.snapshot u (ix.snapshot u)
    have hfaces := (stands_leafIter_toward h target u (ix.snapshot u)).faces
    rw [ListCursor.remaining_after (cuts_passes h target u), ← hbound, ← Iter.collect_eq hsound]
      at hfaces
    exact hfaces
  · have hkind := hwhole.resolve_right (by omega)
    have hit : it = .merge ((startMerge ix.definition ix.snapshot us).selected true) := by
      rw [show it = assemble ix.definition ix.snapshot us from rfl, assemble_of_two htwo, hkind]
    have hfirst : it.rebind ix.snapshot .first =
        .merge (Merge.flow ix.definition.comparator (rebindAll ix us .first)) := by
      rw [hit]
      rfl
    have htoward : it.rebind ix.snapshot (.toward target) =
        .merge (Merge.flow ix.definition.comparator (rebindAll ix us (.toward target))) := by
      rw [hit]
      rfl
    rw [Iter.collect, hfirst, htoward, (Iter.faces_flow _ _).rest,
      Merge.flowing_dropWhile (fun _ _ => passes_of_isLE hkind)
        (forall₂_rebindAll h hkind us target) (Iter.left_le_span _ _) (Iter.left_le_span _ _)]
    exact Iter.faces_flow _ _

/-- **A place is told by a key, exactly.** In every set that can come up, in either regime, the
lower bound of a probe counts the elements whose keys are less; exactly these stand before it, and
it is where the key of the probe is found, if any element has it. An iterator of a sorted index, or
one over a single leaf, that moves to a target has before it what it would go through now, from its
first element on, less what comes before the target: it stands at the first element of all that is
not less, by key or in a bag by id, and nowhere if there is none. Nothing is asked of the probe, of
the target, or of the structures. -/
theorem positioning_spec :
    (∀ (s : OrderedSet), s.Reachable → ∀ probe : FeatureStructure,
      s.lowerBound probe = s.elements.countP (fun e => s.comparator.compare e probe == .lt) ∧
      (∀ i e, s.get? i = some e →
        (i < s.lowerBound probe ↔ s.comparator.compare e probe = .lt)) ∧
      (s.firstWithKey? probe = some (s.lowerBound probe) ↔
        ∃ e ∈ s.elements, s.comparator.compare e probe = .eq) ∧
      (s.firstWithKey? probe = none ↔ ∀ e ∈ s.elements, s.comparator.compare e probe ≠ .eq)) ∧
    (∀ (ix : Index) (t : TypeCode) (withSubtypes : Bool) (it : Iter TypeCode),
      ix.Handed t withSubtypes it →
      ix.definition.kind = .sorted ∨ (asked ix.system t withSubtypes).length = 1 →
      ∀ target : FeatureStructure,
        let order := (it.collect ix.snapshot).1
        let found := it.rebind ix.snapshot (.toward target)
        let here := order.find? fun e => !passes ix.definition target e
        found.rest.1 = order.dropWhile (passes ix.definition target) ∧
        found.isValid = here.isSome ∧
        found.get = match here with
          | some fs => .ok fs
          | none => .error .invalidIterator) := by
  refine ⟨fun s h probe => ?_, fun ix t withSubtypes it h hwhole target => ?_⟩
  · have hs := h.sound
    exact ⟨OrderedSet.lowerBound_eq hs probe, fun i e => OrderedSet.lt_lowerBound_iff hs probe,
      OrderedSet.firstWithKey?_eq_some hs probe, OrderedSet.firstWithKey?_eq_none hs probe⟩
  · intro order found here
    have hfaces := faces_toward h.sound.1 h.asked_ne_nil hwhole target
    have hrebind := h.rebind_eq (h.undivided hwhole) ix.snapshot
    simp only [Iter.collect, ← hrebind] at hfaces
    rw [show here = _ from List.find?_not_eq_head?_dropWhile ..]
    exact ⟨hfaces.rest, hfaces.isValid, hfaces.get⟩

open Sample (mark word index)

/-- A structure of the root type, which has no places, comes before all marks; and the merge over
marks and words moves to the word at the place of the target. -/
theorem positioning_sample :
    let top : FeatureStructure := ⟨⟨10, by decide⟩, ⟨0⟩, 1, []⟩
    let set := (OrderedSet.empty Sample.definition.comparator .sorted 0 4).apply
      (.insert false (mark 0 5))
    let found := (Iter.merge Sample.merge).rebind index.snapshot (.toward (mark 7 4))
    set.lowerBound top = 0 ∧ set.firstWithKey? top = none ∧
      found.get = .ok (word 1 4) ∧ found.rest.1 = [word 1 4, mark 0 5] := by
  intro top set found
  obtain ⟨hsets, hiters⟩ := positioning_spec
  obtain ⟨hbound, -, -, hnone⟩ := hsets set (.change (.empty ..) _) top
  have hhanded : index.Handed ⟨1⟩ true (.merge Sample.merge) :=
    .iterate Sample.reachable_index rfl
  obtain ⟨hrest, -, hget⟩ := hiters index ⟨1⟩ true _ hhanded (.inl rfl) (mark 7 4)
  exact ⟨hbound, hnone.mpr (by decide), hget, hrest⟩

end Index
end FeatureIndex
