import FeatureIndex.Proofs.OrderedSet
import FeatureIndex.Store.Leaf

/-!
# Leaf stores

A leaf of either form keeps its structures in strictly ascending order: an ordered set in the order
of its regime, and a bag, whose comparator has no keys, in the order of ids, be it small or
promoted. The table of a small bag has every structure under its own id (`Bag.Tidy`), so that the
check of a bag never fails.

`Leaf.insert_spec`, `Leaf.erase_spec` and `Leaf.successor_clear` say what a change makes of the
elements, whatever the form: an insertion never fails, a change that reports nothing leaves the very
same leaf behind, and every other one leaves a leaf of the next generation.
-/

namespace FeatureIndex

open Comparator (compareIds compareIds_eq_eq)
open Std (OrientedCmp)

variable {fs : FeatureStructure}

theorem FeatureStructure.same_iff_compareIds {a b : FeatureStructure} :
    a.same b = true ↔ compareIds a b = .eq := by
  rw [same_iff, compareIds_eq_eq]

/-! ### Sorting by id -/

namespace Bag

variable {members : List FeatureStructure}

theorem mem_insertById {a : FeatureStructure} :
    a ∈ insertById fs members ↔ a = fs ∨ a ∈ members := by
  conv_rhs => rw [← List.takeWhile_append_dropWhile (p := fun m => decide (m.id.val < fs.id.val))
    (l := members)]
  rw [insertById, List.mem_append, List.mem_cons, List.mem_append]
  exact or_left_comm

theorem insertById_eq (h : Ascending compareIds members) (fs : FeatureStructure) :
    insertById fs members =
      members.insertIdx (members.countP fun e => compareIds e fs == .lt) fs := by
  rw [insertIdx_countP ((lower_lt fs).cuts h), insertById]
  simp only [Comparator.compareIds_beq_lt]

theorem mem_sortById {a : FeatureStructure} : a ∈ sortById members ↔ a ∈ members := by
  induction members with
  | nil => rfl
  | cons m rest ih =>
      show a ∈ insertById m (sortById rest) ↔ _
      rw [mem_insertById, ih, List.mem_cons]

/-- Members without a common id ascend when they are sorted. -/
theorem ascending_sortById (h : members.Pairwise fun a b => compareIds a b ≠ .eq) :
    Ascending compareIds (sortById members) := by
  induction members with
  | nil => exact List.Pairwise.nil
  | cons m rest ih =>
      obtain ⟨hm, hrest⟩ := List.pairwise_cons.mp h
      show Ascending compareIds (insertById m (sortById rest))
      rw [insertById_eq (ih hrest)]
      refine (ih hrest).insertIdx fun e he heq => ?_
      exact hm e (mem_sortById.mp he) (OrientedCmp.eq_symm heq)

theorem length_sortById (members : List FeatureStructure) :
    (sortById members).length = members.length := by
  induction members with
  | nil => rfl
  | cons m rest ih =>
      have hsplit := congrArg List.length
        (List.takeWhile_append_dropWhile (p := fun e => decide (e.id.val < m.id.val))
          (l := sortById rest))
      show (insertById m (sortById rest)).length = _
      rw [List.length_append, ih] at hsplit
      rw [insertById, List.length_append, List.length_cons, List.length_cons]
      omega

/-- Taking members out before they are sorted takes them out of the sorted array. -/
theorem sortById_filter (h : members.Pairwise fun a c => compareIds a c ≠ .eq)
    (p : FeatureStructure → Bool) : sortById (members.filter p) = (sortById members).filter p := by
  apply Ascending.ext (ascending_sortById (h.filter p))
    (List.Pairwise.filter p (ascending_sortById h))
  intro a
  rw [mem_sortById, List.mem_filter, List.mem_filter, mem_sortById]

/-! ### Tables -/

variable {table : List (Nat × FeatureStructure)}

/-- A table that has every structure under its own id, and no two under one. -/
structure Tidy (table : List (Nat × FeatureStructure)) : Prop where
  keyed : ∀ m ∈ table, m.1 = m.2.id.val
  apart : (table.map (·.2)).Pairwise fun a c => compareIds a c ≠ .eq

namespace Tidy

theorem empty : Tidy [] := ⟨nofun, List.Pairwise.nil⟩

theorem cons (h : Tidy table) (hnone : ∀ e ∈ table.map (·.2), compareIds fs e ≠ .eq) :
    Tidy ((fs.id.val, fs) :: table) where
  keyed := List.forall_mem_cons.mpr ⟨rfl, h.keyed⟩
  apart := List.pairwise_cons.mpr ⟨hnone, h.apart⟩

theorem filter (h : Tidy table) (p : Nat × FeatureStructure → Bool) : Tidy (table.filter p) where
  keyed m hm := h.keyed m (List.mem_of_mem_filter hm)
  apart := h.apart.sublist (List.filter_sublist.map _)

/-- What is under an id has that id. -/
theorem any_iff (h : Tidy table) :
    table.any (fun m => m.1 == fs.id.val) = true ↔
      ∃ e ∈ table.map (·.2), compareIds e fs = .eq := by
  rw [List.any_eq_true]
  constructor
  · rintro ⟨m, hm, hid⟩
    refine ⟨m.2, List.mem_map_of_mem hm, compareIds_eq_eq.mpr ?_⟩
    rw [← h.keyed m hm]
    exact beq_iff_eq.mp hid
  · rintro ⟨e, he, heq⟩
    obtain ⟨m, hm, rfl⟩ := List.mem_map.mp he
    refine ⟨m, hm, beq_iff_eq.mpr ?_⟩
    rw [h.keyed m hm]
    exact compareIds_eq_eq.mp heq

/-- Taking out what is under an id takes out the structures that have it. -/
theorem map_filter (h : Tidy table) :
    (table.filter fun m => m.1 != fs.id.val).map (·.2) =
      (table.map (·.2)).filter fun m => !m.same fs := by
  rw [List.filter_map]
  refine congrArg (List.map _) (List.filter_congr fun m hm => ?_)
  rw [h.keyed m hm]
  rfl

end Tidy

/-! ### Bags -/

/-- A sound bag has no keys. The table of a small one is tidy, and what it remembers is the sorted
array of its members; the set of a promoted one orders by the comparator of the bag. -/
structure Sound (b : Bag) : Prop where
  keyless : b.comparator.keys = []
  form : match b.form with
    | .small table sorted => Tidy table ∧ ∀ s, sorted = some s → s.2 = sortById (table.map (·.2))
    | .promoted set => set.comparator = b.comparator ∧ set.regime = .sorted ∧ set.Sound

variable {b : Bag} {sorted : Option (ArrayId × List FeatureStructure)}

theorem Sound.tidy (h : b.Sound) (hform : b.form = .small table sorted) :
    Tidy table ∧ ∀ s, sorted = some s → s.2 = sortById (table.map (·.2)) := by
  have htable := h.form
  simp only [hform] at htable
  exact htable

/-- Remembered or made anew, the array of a small bag is the sorted one. -/
theorem Sound.elements_small (h : b.Sound) (hform : b.form = .small table sorted) :
    b.elements = sortById (table.map (·.2)) := by
  simp only [elements, sortedMembers, hform]
  cases sorted with
  | none => rfl
  | some s => exact (h.tidy hform).2 s rfl

theorem elements_promoted {set : OrderedSet} (hform : b.form = .promoted set) :
    b.elements = set.elements := by
  simp only [elements, sortedMembers, hform]

/-- The set of a promoted bag orders by id. -/
theorem Sound.order_eq (h : b.Sound) {set : OrderedSet} (hform : b.form = .promoted set) :
    set.order = compareIds := by
  have hset := h.form
  simp only [hform] at hset
  obtain ⟨hcomparator, hregime, -⟩ := hset
  rw [← Comparator.compareFully_of_keys_eq_nil h.keyless, ← hcomparator]
  funext a c
  simp only [OrderedSet.order, hregime]

theorem Sound.set (h : b.Sound) {set : OrderedSet} (hform : b.form = .promoted set) :
    set.comparator = b.comparator ∧ set.regime = .sorted ∧ set.Sound := by
  have hset := h.form
  simp only [hform] at hset
  exact hset

theorem Sound.ascending (h : b.Sound) : Ascending compareIds b.elements := by
  cases hform : b.form with
  | small table sorted =>
      rw [h.elements_small hform]
      exact ascending_sortById (h.tidy hform).1.apart
  | promoted set =>
      rw [elements_promoted hform, ← h.order_eq hform]
      exact (h.set hform).2.2

theorem Sound.size_eq (h : b.Sound) : b.size = b.elements.length := by
  unfold size
  split
  next hform => rw [h.elements_small hform, length_sortById, List.length_map]
  next hform => rw [elements_promoted hform, OrderedSet.size]

/-- A sound bag stays sound when its set is replaced by one that a change leaves behind. -/
theorem Sound.with_set (h : b.Sound) {set t : OrderedSet} {changed : Bool}
    (hform : b.form = .promoted set) (ht : set.Successor changed t)
    (hsound : Ascending set.order t.elements) (generation : UInt64) :
    Sound { b with form := .promoted t, generation } := by
  obtain ⟨hcomparator, hregime, -⟩ := h.set hform
  exact ⟨h.keyless, ht.alike.1.trans hcomparator, ht.alike.2.trans hregime, ht.sound hsound⟩

/-- A sound bag stays sound with another table, and nothing remembered. -/
theorem Sound.with_table (h : b.Sound) (htable : Tidy table) (generation : UInt64) :
    Sound { b with form := .small table none, generation } :=
  ⟨h.keyless, htable, nofun⟩

theorem sound_empty (ts : TypeSystem) (type : TypeCode) (threshold owner : Nat) :
    (empty (.identity ts type) threshold owner).Sound :=
  ⟨rfl, Tidy.empty, nofun⟩

theorem sound_clear (h : b.Sound) : b.clear.Sound := h.with_table Tidy.empty _

/-- **The check passes on a sound bag.** -/
theorem Sound.check (h : b.Sound) : b.check = .ok () := by
  unfold Bag.check
  split
  next table sorted hform =>
    have hnone : (table.find? fun m => m.1 != m.2.id.val) = none := by
      rw [List.find?_eq_none]
      intro m hm
      rw [(h.tidy hform).1.keyed m hm, bne_self_eq_false]
      exact Bool.false_ne_true
    rw [hnone]
  next set hform => exact OrderedSet.check_eq_ok.mpr (h.set hform).2.2

theorem contains_iff (h : b.Sound) :
    b.contains fs = true ↔ ∃ e ∈ b.elements, compareIds e fs = .eq ∧ e.same fs = true := by
  rw [contains]
  split
  next table _ hform =>
    rw [(h.tidy hform).1.any_iff, h.elements_small hform]
    simp only [FeatureStructure.same_iff_compareIds, and_self, mem_sortById]
  next set hform =>
    rw [OrderedSet.contains_iff (h.set hform).2.2, h.order_eq hform, elements_promoted hform]

/-- The bag that a change leaves behind: the very same one, or one of the next generation. -/
structure Successor (b : Bag) (changed : Bool) (c : Bag) : Prop where
  sound : c.Sound
  comparator : c.comparator = b.comparator
  same : changed = false → c = b
  newer : changed = true → c.generation = b.generation + 1

/-- Without keys the comparator orders by id, as the elements stand already. -/
theorem Sound.ascending_compareFully (h : b.Sound) :
    Ascending b.comparator.compareFully b.elements := by
  rw [Comparator.compareFully_of_keys_eq_nil h.keyless]
  exact h.ascending

/-- Promotion does not fail, and keeps the members. -/
theorem promoteIfLarge_spec (h : b.Sound) :
    ∃ c, b.promoteIfLarge = (.ok (), c) ∧ c.Sound ∧ c.comparator = b.comparator ∧
      c.elements = b.elements ∧ c.generation = b.generation := by
  unfold promoteIfLarge
  split
  next table sorted hform =>
    split
    · obtain ⟨t, hok, hcomparator, hregime, helements, hsound⟩ :=
        OrderedSet.ofAscending_spec b.owner b.generation h.ascending_compareFully
      rw [hok]
      exact ⟨_, rfl, ⟨h.keyless, hcomparator, hregime, hsound⟩, rfl,
        (elements_promoted rfl).trans helements, rfl⟩
    · exact ⟨b, rfl, h, rfl, rfl, rfl⟩
  next => exact ⟨b, rfl, h, rfl, rfl, rfl⟩

/-- A small bag that does not hold a structure is sound as it has grown by it. -/
theorem Sound.grown (h : b.Sound) (hform : b.form = .small table sorted)
    (hout : ¬ b.contains fs = true) : (∀ e ∈ b.elements, compareIds e fs ≠ .eq) ∧
      Sound { b with
        form := .small ((fs.id.val, fs) :: table) none
        generation := b.generation + 1 } := by
  have hnone : ∀ e ∈ b.elements, compareIds e fs ≠ .eq := fun e he heq =>
    hout ((contains_iff h).mpr ⟨e, he, heq, FeatureStructure.same_iff_compareIds.mpr heq⟩)
  refine ⟨hnone, h.with_table ((h.tidy hform).1.cons ?_) _⟩
  intro e he heq
  rw [h.elements_small hform] at hnone
  exact hnone e (mem_sortById.mpr he) (OrientedCmp.eq_symm heq)

theorem insert_spec (h : b.Sound) (shared : Bool) (fs : FeatureStructure) :
    ∃ changed c, b.insert shared fs = (.ok changed, c) ∧ b.Successor changed c ∧
      Insertion compareIds fs b.elements changed c.elements := by
  unfold insert
  split
  next table sorted hform =>
    split
    next hin =>
      obtain ⟨e, he, heq, -⟩ := (contains_iff h).mp hin
      exact ⟨false, b, rfl, ⟨h, rfl, fun _ => rfl, nofun⟩, .kept he heq⟩
    next hout =>
      -- the bag is sound as it has grown, and promotion only changes its form
      obtain ⟨hnone, hgrown⟩ := h.grown hform hout
      obtain ⟨c, hok, hsound, hcomparator, hmembers, hgeneration⟩ := promoteIfLarge_spec hgrown
      simp only [hok, hsound.check]
      refine ⟨true, c, rfl, ⟨hsound, hcomparator, nofun, fun _ => hgeneration⟩, ?_⟩
      have hasc := h.ascending
      rw [h.elements_small hform] at hasc hnone ⊢
      rw [hmembers]
      show Insertion compareIds fs _ true (insertById fs (sortById (table.map (·.2))))
      rw [insertById_eq hasc]
      exact .added hnone
  next set hform =>
    obtain ⟨changed, t, hok, hnext, hins⟩ := OrderedSet.insert_spec (h.set hform).2.2 shared fs
    have hsound := hins.ascending (h.set hform).2.2
    rw [elements_promoted hform, hok, ← h.order_eq hform]
    cases changed with
    | true =>
        have hb := h.with_set hform hnext hsound (b.generation + 1)
        simp only [hb.check]
        exact ⟨true, _, rfl, ⟨hb, rfl, nofun, fun _ => rfl⟩, hins⟩
    | false =>
        obtain rfl := hnext.same rfl
        have hb : { b with form := .promoted t } = b := by rw [← hform]
        exact ⟨false, _, rfl, ⟨h.with_set hform hnext hsound _, rfl, fun _ => hb, nofun⟩, hins⟩

/-- In the order of ids, taking out what has the id of a structure takes out one place. -/
theorem filter_same_eq {l : List FeatureStructure} (h : Ascending compareIds l) {i : Nat}
    {e : FeatureStructure} (he : l[i]? = some e) (heq : compareIds e fs = .eq) :
    l.filter (fun m => !m.same fs) = l.eraseIdx i := by
  obtain ⟨hi, rfl⟩ := List.getElem?_eq_some_iff.mp he
  -- both sides ascend, so it is enough that they have the same elements
  apply Ascending.ext (List.Pairwise.filter _ h) (h.eraseIdx i)
  intro a
  rw [List.mem_filter, ← h.nodup.erase_getElem _ hi, h.nodup.mem_erase_iff, and_comm]
  apply and_congr_left
  intro ha
  rw [Bool.not_eq_true', Bool.eq_false_iff, ne_eq, FeatureStructure.same_iff_compareIds,
    not_iff_not, ← Std.TransCmp.congr_right heq]
  exact ⟨h.eq_of_compare ha (List.getElem_mem hi), fun hae => hae ▸ Std.ReflCmp.compare_self⟩

theorem erase_spec (h : b.Sound) (shared : Bool) (fs : FeatureStructure) :
    ∃ changed c, b.erase shared fs = (changed, c) ∧ b.Successor changed c ∧
      Removal compareIds fs b.elements changed c.elements := by
  unfold erase
  split
  next table sorted hform =>
    split
    next hin =>
      obtain ⟨e, he, heq, hsame⟩ := (contains_iff h).mp hin
      obtain ⟨i, hi, rfl⟩ := List.getElem_of_mem he
      have htable := (h.tidy hform).1
      have hnext := h.with_table (htable.filter fun m => m.1 != fs.id.val) (b.generation + 1)
      refine ⟨true, _, rfl, ⟨hnext, rfl, nofun, fun _ => rfl⟩, ?_⟩
      show Removal compareIds fs b.elements true
        (sortById ((table.filter fun m => m.1 != fs.id.val).map (·.2)))
      rw [htable.map_filter, sortById_filter htable.apart, ← h.elements_small hform,
        filter_same_eq h.ascending (List.getElem?_eq_getElem hi) heq]
      exact .removed (List.getElem?_eq_getElem hi) heq hsame
    next hout =>
      refine ⟨false, b, rfl, ⟨h, rfl, fun _ => rfl, nofun⟩, .absent fun e he heq => ?_⟩
      exact Bool.eq_false_iff.mpr fun hsame => hout ((contains_iff h).mpr ⟨e, he, heq, hsame⟩)
  next set hform =>
    obtain ⟨changed, t, hok, hnext, hrem⟩ := OrderedSet.erase_spec (h.set hform).2.2 shared fs
    have hsound := hrem.ascending (h.set hform).2.2
    have helements := elements_promoted hform
    rw [hok, ← h.order_eq hform]
    cases changed with
    | true =>
        rw [helements]
        exact ⟨true, _, rfl, ⟨h.with_set hform hnext hsound _, rfl, nofun, fun _ => rfl⟩, hrem⟩
    | false =>
        obtain rfl := hnext.same rfl
        rw [← helements] at hrem
        exact ⟨false, b, rfl, ⟨h, rfl, fun _ => rfl, nofun⟩, hrem⟩

end Bag

/-! ### Leaves -/

namespace Leaf

variable {l : Leaf}

/-- A leaf whose store is sound. -/
def Sound : Leaf → Prop
  | ordered set => set.Sound
  | bag b => b.Sound

/-- The order in which the structures stand. -/
def order : Leaf → FeatureStructure → FeatureStructure → Ordering
  | ordered set => set.order
  | bag _ => compareIds

instance (l : Leaf) : Std.TransCmp l.order :=
  match l with
  | ordered set => inferInstanceAs (Std.TransCmp set.order)
  | bag _ => inferInstanceAs (Std.TransCmp compareIds)

/-- The number of changes so far. -/
def generation (l : Leaf) : UInt64 := l.snapshot.generation

/-- Leaves of one form, one comparator and one regime. -/
def Alike : Leaf → Leaf → Prop
  | ordered s, ordered t => s.Alike t
  | bag b, bag c => b.comparator = c.comparator
  | _, _ => False

theorem Alike.refl (l : Leaf) : l.Alike l := by
  cases l with
  | ordered set => exact ⟨rfl, rfl⟩
  | bag b => exact rfl

theorem Alike.trans {l m n : Leaf} (h : l.Alike m) (h' : m.Alike n) : l.Alike n := by
  cases l <;> cases m <;> cases n <;> try contradiction
  case ordered.ordered.ordered => exact ⟨h.1.trans h'.1, h.2.trans h'.2⟩
  case bag.bag.bag => exact Eq.trans h h'

theorem Alike.order_eq {l m : Leaf} (h : l.Alike m) : l.order = m.order := by
  cases l <;> cases m <;> try contradiction
  case ordered.ordered => exact OrderedSet.Alike.order h
  case bag.bag => rfl

/-- The leaf that a change leaves behind: the very same one, or one of the next generation. -/
structure Successor (l : Leaf) (changed : Bool) (m : Leaf) : Prop where
  sound : m.Sound
  alike : m.Alike l
  same : changed = false → m = l
  newer : changed = true → m.generation = l.generation + 1

theorem Successor.refl (h : l.Sound) : l.Successor false l :=
  ⟨h, .refl l, fun _ => rfl, nofun⟩

theorem Successor.bag {b c : Bag} {changed : Bool} (h : b.Successor changed c) :
    (bag b).Successor changed (bag c) := by
  refine ⟨h.sound, h.comparator, fun hc => congrArg _ (h.same hc), ?_⟩
  intro hc
  have hgeneration : ∀ x : Bag, (Leaf.bag x).generation = x.generation := by
    intro x
    show x.snapshot.generation = x.generation
    unfold Bag.snapshot
    split <;> rfl
  rw [hgeneration, hgeneration, h.newer hc]

theorem Successor.ordered {s t : OrderedSet} {changed : Bool} (h : s.Successor changed t)
    (ht : Ascending s.order t.elements) : (ordered s).Successor changed (ordered t) :=
  ⟨h.sound ht, h.alike, fun hc => congrArg _ (h.same hc), h.newer⟩

@[simp] theorem snapshot_elements (l : Leaf) : l.snapshot.elements = l.elements := by
  cases l with
  | ordered set => rfl
  | bag b =>
      rw [snapshot, elements, Bag.snapshot]
      split
      next => rfl
      next hform => exact (Bag.elements_promoted hform).symm

theorem Sound.ascending (h : l.Sound) : Ascending l.order l.elements := by
  cases l with
  | ordered set => exact h
  | bag b => exact Bag.Sound.ascending h

theorem Sound.size_eq (h : l.Sound) : l.size = l.elements.length := by
  cases l with
  | ordered set => rfl
  | bag b => exact Bag.Sound.size_eq h

theorem contains_iff (h : l.Sound) :
    l.contains fs = true ↔ ∃ e ∈ l.elements, l.order e fs = .eq ∧ e.same fs = true := by
  cases l with
  | ordered set => exact OrderedSet.contains_iff h
  | bag b => exact Bag.contains_iff h

/-- **An insertion never fails**, and it leaves the next generation or the very same leaf. -/
theorem insert_spec (h : l.Sound) (shared : Bool) (fs : FeatureStructure) :
    ∃ changed m, l.insert shared fs = (.ok changed, m) ∧ l.Successor changed m ∧
      Insertion l.order fs l.elements changed m.elements := by
  cases l with
  | ordered set =>
      obtain ⟨changed, t, hok, hnext, hins⟩ := OrderedSet.insert_spec h shared fs
      exact ⟨changed, ordered t, by rw [insert, hok], .ordered hnext (hins.ascending h), hins⟩
  | bag b =>
      obtain ⟨changed, c, hok, hnext, hins⟩ := Bag.insert_spec h shared fs
      exact ⟨changed, bag c, by rw [insert, hok], .bag hnext, hins⟩

/-- **A removal** leaves the next generation or the very same leaf. -/
theorem erase_spec (h : l.Sound) (shared : Bool) (fs : FeatureStructure) :
    ∃ changed m, l.erase shared fs = (changed, m) ∧ l.Successor changed m ∧
      Removal l.order fs l.elements changed m.elements := by
  cases l with
  | ordered set =>
      obtain ⟨changed, t, hok, hnext, hrem⟩ := OrderedSet.erase_spec h shared fs
      exact ⟨changed, ordered t, by rw [erase, hok], .ordered hnext (hrem.ascending h), hrem⟩
  | bag b =>
      obtain ⟨changed, c, hok, hnext, hrem⟩ := Bag.erase_spec h shared fs
      exact ⟨changed, bag c, by rw [erase, hok], .bag hnext, hrem⟩

@[simp] theorem elements_clear (l : Leaf) (shared : Bool) : (l.clear shared).elements = [] := by
  cases l with
  | ordered set => exact set.elements_clear shared
  | bag b => rfl

/-- Clearing counts as a change, even where nothing is held. -/
theorem successor_clear (h : l.Sound) (shared : Bool) : l.Successor true (l.clear shared) := by
  cases l with
  | ordered set =>
      exact ⟨set.sound_clear shared, set.alike_clear shared, nofun,
        fun _ => set.generation_clear shared⟩
  | bag b => exact .bag ⟨b.sound_clear h, rfl, nofun, fun _ => rfl⟩

end Leaf
end FeatureIndex
