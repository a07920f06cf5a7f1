import FeatureIndex.Proofs.Bag
import FeatureIndex.Proofs.Hierarchy
import Mathlib.Algebra.Ring.Nat

/-!
# The arrays of stores

A change of an ordered set goes to the array that the set has, or to a copy when that array is
shared. A promoted bag does as its set does. A small bag drops the array that it remembers and makes
another when it is next asked for its members, and so it is with a bag that is promoted or cleared.

`Leaf.Rewritten` says all this of any store. `Leaf.insert_cases`, `Leaf.erase_cases` and
`Leaf.rewritten_clear` say that a change which reports one leaves a rewritten store behind, and any
other the very same store. Nothing is asked of the keys of a bag: where it cannot be promoted it has
taken the structure in and stays small, which is a change as well.
-/

namespace FeatureIndex

variable {fs : FeatureStructure}

/-- Whether a store has changed by an insertion. One that fails has taken the structure in. -/
def changedBy : Except Error Bool → Bool
  | .ok changed => changed
  | .error _ => true

/-- A check at the end does not undo a change. -/
theorem changedBy_map_true (checked : Except Error Unit) :
    changedBy (checked.map fun _ => true) = true := by
  cases checked <;> rfl

/-! ### Ordered sets -/

namespace OrderedSet

variable {s : OrderedSet}

/-- The set that a change leaves behind: it is in the next generation, in an array that is new when
the old one was shared. -/
structure Rewritten (s : OrderedSet) (shared : Bool) (t : OrderedSet) : Prop where
  sound : t.Sound
  generation : t.generation = s.generation + 1
  array : t.array = (s.writable shared).array

theorem array_writable (s : OrderedSet) (shared : Bool) :
    (s.writable shared).array = if shared then ⟨s.owner, s.generation + 1⟩ else s.array := by
  cases shared <;> rfl

theorem copies_writable (s : OrderedSet) (shared : Bool) :
    (s.writable shared).copies = s.copies + shared.toNat := by
  cases shared <;> rfl

/-- A set that is written has its array to itself before, and a copy is counted for that. -/
theorem rewritten_of_writable {t : OrderedSet} {shared : Bool} (hsound : t.Sound)
    (hgeneration : t.generation = s.generation + 1)
    (hkept : t.array = (s.writable shared).array ∧ t.copies = (s.writable shared).copies) :
    s.Rewritten shared t ∧ t.copies = s.copies + shared.toNat :=
  ⟨⟨hsound, hgeneration, hkept.1⟩, hkept.2.trans (s.copies_writable shared)⟩

/-- An insertion leaves the very same set, or rewrites it and counts the copy. -/
theorem insert_cases (h : s.Sound) (shared : Bool) (fs : FeatureStructure) :
    s.insert shared fs = (.ok false, s) ∨ ∃ t, s.insert shared fs = (.ok true, t) ∧
      s.Rewritten shared t ∧ t.copies = s.copies + shared.toNat := by
  obtain ⟨changed, t, hok, hnext, hins⟩ := insert_spec h shared fs
  cases changed with
  | false =>
      obtain rfl := hnext.same rfl
      exact .inl hok
  | true =>
      have hsound := hnext.sound (hins.ascending h)
      refine .inr ⟨t, hok, rewritten_of_writable hsound (hnext.newer rfl) ?_⟩
      -- by the answer, the structure was put in or took the place of another
      unfold insert at hok
      split at hok
      · split at hok
        · split at hok <;> cases hok
          exact ⟨rfl, rfl⟩
        · cases hok
      · obtain rfl := congrArg Prod.snd hok
        exact ⟨rfl, rfl⟩

theorem erase_cases (h : s.Sound) (shared : Bool) (fs : FeatureStructure) :
    s.erase shared fs = (false, s) ∨ ∃ t, s.erase shared fs = (true, t) ∧
      s.Rewritten shared t ∧ t.copies = s.copies + shared.toNat := by
  obtain ⟨changed, t, hok, hnext, hrem⟩ := erase_spec h shared fs
  cases changed with
  | false =>
      obtain rfl := hnext.same rfl
      exact .inl hok
  | true =>
      have hsound := hnext.sound (hrem.ascending h)
      refine .inr ⟨t, hok, rewritten_of_writable hsound (hnext.newer rfl) ?_⟩
      unfold erase at hok
      split at hok <;> cases hok
      exact ⟨rfl, rfl⟩

/-- Clearing leaves a shared array to its other holders, which is no copy. -/
theorem rewritten_clear (s : OrderedSet) (shared : Bool) :
    s.Rewritten shared (s.clear shared) ∧ (s.clear shared).copies = s.copies := by
  refine ⟨⟨s.sound_clear shared, s.generation_clear shared, ?_⟩, ?_⟩
  all_goals cases shared <;> rfl

/-- A set that has been made of elements ascends, in an array made in that generation. -/
theorem ofAscending_eq_ok {comparator : Comparator} {regime : Regime} {owner : Nat}
    {elements : List FeatureStructure} {generation : UInt64} {t : OrderedSet}
    (hok : ofAscending comparator regime owner elements generation = .ok t) :
    t.Sound ∧ t.generation = generation ∧ t.array = ⟨owner, generation⟩ := by
  obtain ⟨_, hcheck, hok⟩ := bind_eq_ok.mp hok
  cases hok
  exact ⟨check_eq_ok.mp hcheck, rfl, rfl⟩

end OrderedSet

/-! ### Bags -/

namespace Bag

variable {b : Bag}

/-- The set of a promoted bag is sound, and in the generation of the bag. -/
def Arranged (b : Bag) : Prop :=
  ∀ set, b.form = .promoted set → set.Sound ∧ set.generation = b.generation

/-- What becomes of a bag that has grown, while it has no array: it stays small, or an array is made
for its set. -/
theorem promoteIfLarge_cases {members : List (Nat × FeatureStructure)}
    (hform : b.form = .small members none) :
    b.promoteIfLarge.2 = b ∨ ∃ set, b.promoteIfLarge.2 = { b with form := .promoted set } ∧
      set.Sound ∧ set.generation = b.generation ∧ set.array.born = b.generation := by
  simp only [promoteIfLarge, hform]
  split
  · split
    next set hok =>
      obtain ⟨hsound, hgeneration, harray⟩ := OrderedSet.ofAscending_eq_ok hok
      exact .inr ⟨set, rfl, hsound, hgeneration, by rw [harray]⟩
    next => exact .inl rfl
  · exact .inl rfl

/-- A small bag that takes a structure in drops its array, whether it can be promoted or not. -/
theorem insert_small {members : List (Nat × FeatureStructure)}
    {sorted : Option (ArrayId × List FeatureStructure)} (hform : b.form = .small members sorted)
    (hout : ¬ b.contains fs = true) (shared : Bool) :
    changedBy (b.insert shared fs).1 = true ∧ (b.insert shared fs).2 =
      (promoteIfLarge { b with
        form := .small ((fs.id.val, fs) :: members) none
        generation := b.generation + 1 }).2 := by
  simp only [insert, hform, if_neg hout]
  split
  next hok => exact ⟨changedBy_map_true _, by rw [hok]⟩
  next hok => exact ⟨rfl, by rw [hok]⟩

end Bag

/-! ### Stores of either kind -/

namespace Leaf

variable {l m : Leaf}

/-- Whether a change goes to the array that the store has, as long as nobody else holds it. -/
def writesInPlace : Leaf → Bool
  | ordered _ => true
  | bag b => b.isPromoted

/-- A store whose set, where it has one, is sound and in the generation of the store. -/
def Arranged : Leaf → Prop
  | ordered set => set.Sound
  | bag b => b.Arranged

/-- The store that a change leaves behind: it is in the next generation, and where it has an array,
that is the one it had, if it wrote in place, or else one of that generation. -/
structure Rewritten (l : Leaf) (shared : Bool) (m : Leaf) : Prop where
  arranged : m.Arranged
  generation : m.generation = l.generation + 1
  array : ∀ a, m.array? = some a →
    if l.writesInPlace && !shared then l.array? = some a else a.born = m.generation

theorem Rewritten.toNat_generation {shared : Bool} (h : l.Rewritten shared m)
    (hroom : l.generation.toNat + 1 < 2 ^ 64) : m.generation.toNat = l.generation.toNat + 1 := by
  rw [h.generation, UInt64.toNat_add]
  exact Nat.mod_eq_of_lt hroom

@[simp] theorem generation_bag (b : Bag) : (bag b).generation = b.generation :=
  b.snapshot_generation

theorem Rewritten.ordered {s t : OrderedSet} {shared : Bool} (h : s.Rewritten shared t) :
    (ordered s).Rewritten shared (ordered t) := by
  refine ⟨h.sound, h.generation, ?_⟩
  rintro _ ⟨⟩
  rw [h.array, OrderedSet.array_writable]
  cases shared with
  | false => exact congrArg some rfl
  | true => exact h.generation.symm

/-- A promoted bag is rewritten as its set is. -/
theorem Rewritten.promoted {b : Bag} {s t : OrderedSet} {shared : Bool} (hb : b.Arranged)
    (hform : b.form = .promoted s) (h : s.Rewritten shared t) :
    (bag b).Rewritten shared (bag { b with
      form := .promoted t
      generation := b.generation + 1 }) := by
  have hgeneration : t.generation = b.generation + 1 := by
    rw [h.generation, (hb s hform).2]
  refine ⟨?_, ?_, ?_⟩
  · rintro _ ⟨⟩
    exact ⟨h.sound, hgeneration⟩
  · rw [generation_bag, generation_bag]
  · rintro _ ⟨⟩
    have hbig : (bag b).writesInPlace = true := by simp only [writesInPlace, Bag.isPromoted, hform]
    rw [hbig, h.array, OrderedSet.array_writable, generation_bag]
    cases shared with
    | false => simp [array?, hform]
    | true => exact hgeneration ▸ h.generation.symm

/-- A bag that drops its array, and has none yet or a new one. -/
theorem Rewritten.dropped {b c : Bag} {shared : Bool} (hsmall : b.isPromoted = false)
    (hgeneration : c.generation = b.generation + 1)
    (hform : (∃ members, c.form = .small members none) ∨ ∃ set, c.form = .promoted set ∧
      set.Sound ∧ set.generation = c.generation ∧ set.array.born = c.generation) :
    (bag b).Rewritten shared (bag c) := by
  refine ⟨?_, by rw [generation_bag, generation_bag, hgeneration], ?_⟩
  · intro set hset
    obtain ⟨members, hform⟩ | ⟨t, hform, hsound, ht, -⟩ := hform
    · rw [hform] at hset
      cases hset
    · rw [hform] at hset
      cases hset
      exact ⟨hsound, ht⟩
  · intro a ha
    rw [writesInPlace, hsmall, generation_bag]
    obtain ⟨members, hform⟩ | ⟨t, hform, -, -, hborn⟩ := hform
    · simp only [array?, hform] at ha
      cases ha
    · simp only [array?, hform] at ha
      cases ha
      exact hborn

/-- What a change leaves behind: the very same store, or a rewritten one. -/
def Next (l : Leaf) (shared changed : Bool) (m : Leaf) : Prop :=
  if changed then l.Rewritten shared m else m = l

/-- **An insertion leaves the very same store, or rewrites it and reports so.** -/
theorem next_insert (h : l.Arranged) (shared : Bool) (fs : FeatureStructure) :
    l.Next shared (changedBy (l.insert shared fs).1) (l.insert shared fs).2 := by
  cases l with
  | ordered s =>
      obtain hok | ⟨t, hok, ht, -⟩ := OrderedSet.insert_cases h shared fs
      · rw [insert, hok]
        rfl
      · rw [insert, hok]
        exact .ordered ht
  | bag b =>
      show (bag b).Next shared (changedBy (b.insert shared fs).1) (bag (b.insert shared fs).2)
      cases hform : b.form with
      | small members sorted =>
          by_cases hin : b.contains fs = true
          · simp only [Bag.insert, hform, if_pos hin]
            rfl
          · obtain ⟨hchanged, hgrown⟩ := Bag.insert_small hform hin shared
            rw [hchanged, hgrown]
            have hsmall : b.isPromoted = false := by rw [Bag.isPromoted, hform]
            -- it has no array while it grows
            obtain hkept | ⟨set, hset, hsound, hgeneration, hborn⟩ :=
              Bag.promoteIfLarge_cases (b := { b with
                form := .small ((fs.id.val, fs) :: members) none
                generation := b.generation + 1 }) rfl
            · rw [hkept]
              exact .dropped hsmall rfl (.inl ⟨_, rfl⟩)
            · rw [hset]
              exact .dropped hsmall rfl (.inr ⟨set, rfl, hsound, hgeneration, hborn⟩)
      | promoted s =>
          obtain hok | ⟨t, hok, ht, -⟩ := OrderedSet.insert_cases (h s hform).1 shared fs
          · have hb : { b with form := .promoted s } = b := by rw [← hform]
            simp only [Bag.insert, hform, hok, hb]
            rfl
          · simp only [Bag.insert, hform, hok, changedBy_map_true]
            exact .promoted h hform ht

/-- **A removal leaves the very same store, or rewrites it and reports so.** -/
theorem next_erase (h : l.Arranged) (shared : Bool) (fs : FeatureStructure) :
    l.Next shared (l.erase shared fs).1 (l.erase shared fs).2 := by
  cases l with
  | ordered s =>
      obtain hok | ⟨t, hok, ht, -⟩ := OrderedSet.erase_cases h shared fs
      · rw [erase, hok]
        rfl
      · rw [erase, hok]
        exact .ordered ht
  | bag b =>
      show (bag b).Next shared (b.erase shared fs).1 (bag (b.erase shared fs).2)
      cases hform : b.form with
      | small members sorted =>
          have hsmall : b.isPromoted = false := by rw [Bag.isPromoted, hform]
          by_cases hin : b.contains fs = true
          · simp only [Bag.erase, hform, if_pos hin]
            exact .dropped hsmall rfl (.inl ⟨_, rfl⟩)
          · simp only [Bag.erase, hform, if_neg hin]
            rfl
      | promoted s =>
          obtain hok | ⟨t, hok, ht, -⟩ := OrderedSet.erase_cases (h s hform).1 shared fs
          · simp only [Bag.erase, hform, hok]
            rfl
          · simp only [Bag.erase, hform, hok]
            exact .promoted h hform ht

theorem rewritten_clear (l : Leaf) (shared : Bool) : l.Rewritten shared (l.clear shared) := by
  cases l with
  | ordered s => exact .ordered (s.rewritten_clear shared).1
  | bag b =>
      refine ⟨?_, by rw [clear, generation_bag, generation_bag, Bag.clear], ?_⟩
      · rintro _ ⟨⟩
      · rintro _ ⟨⟩

/-! ### Snapshots -/

/-- A snapshot shares the array of a store that has one. -/
theorem snapshot_array {a : ArrayId} (ha : l.array? = some a) : l.snapshot.array = a := by
  cases l with
  | ordered s =>
      cases ha
      rfl
  | bag b =>
      cases hform : b.form with
      | small members sorted =>
          simp only [array?, hform, Option.map_eq_some_iff] at ha
          obtain ⟨s, rfl, rfl⟩ := ha
          simp only [snapshot, Bag.snapshot, Bag.sortedMembers, hform]
          rfl
      | promoted s =>
          simp only [array?, hform] at ha
          cases ha
          simp only [snapshot, Bag.snapshot, hform]
          rfl

/-- A snapshot of a store that has no array is given one of that moment. -/
theorem snapshot_born (ha : l.array? = none) : l.snapshot.array.born = l.generation := by
  cases l with
  | ordered s => cases ha
  | bag b =>
      rw [generation_bag]
      cases hform : b.form with
      | small members sorted =>
          simp only [array?, hform, Option.map_eq_none_iff] at ha
          subst ha
          simp only [snapshot, Bag.snapshot, Bag.sortedMembers, hform]
          rfl
      | promoted s =>
          simp only [array?, hform] at ha
          cases ha

/-- A store keeps the array that it has given to a snapshot. -/
theorem settled_spec (h : l.Arranged) : l.settled.Arranged ∧ l.settled.snapshot = l.snapshot ∧
    l.settled.array? = some l.snapshot.array := by
  cases l with
  | ordered s => exact ⟨h, rfl, rfl⟩
  | bag b =>
      cases hform : b.form with
      | small members sorted =>
          simp only [settled, Bag.settled, hform]
          refine ⟨?_, ?_, ?_⟩
          · rintro _ ⟨⟩
          · simp only [snapshot, Bag.snapshot, Bag.elements, Bag.sortedMembers, hform,
              Option.getD_some]
          · simp only [snapshot, Bag.snapshot, hform]
            rfl
      | promoted s =>
          have hb : b.settled = b := by simp only [Bag.settled, hform]
          have ha : (bag b).array? = some s.array := by simp only [array?, hform]
          rw [settled, hb]
          exact ⟨h, rfl, by rw [snapshot_array ha, ha]⟩

end Leaf
end FeatureIndex
