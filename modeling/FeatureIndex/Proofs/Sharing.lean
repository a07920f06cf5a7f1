import FeatureIndex.Proofs.Arrays
import FeatureIndex.Proofs.Index
import FeatureIndex.Session.Basic

/-!
# Sharing follows the generation

`Sharing` is a store with the snapshots of it that are alive, down to the arrays that they hold.
Every array is made at an address of its own. A store writes to its array in place while no living
snapshot holds it, which everyone who reads at that address would see, and otherwise to a new one.

`Told` is the invariant of all that hold an array at a time: they hold the same one exactly when
they are of one generation, exactly when they give it the same identity, and they read there what
they held when they got it. A change or a snapshot keeps it, as long as the generations do not
overflow (`Tracked.apply`). So two living snapshots share an array exactly when they are of one
generation, and a set has counted a copy for each change that found its array shared
(`Sharing.shares_by_generation`). A session, which knows identities only, comes to know by them
whether an array is shared (`Sharing.Tracked.leafShared_eq`).
-/

namespace FeatureIndex

/-! ### Living snapshots -/

/-- A snapshot that is alive, and the address of the array that it holds. -/
structure Holder where
  snapshot : Snapshot
  address : Nat

/-- A store with the snapshots of it that are alive. `arrays` are the arrays made so far, by their
addresses; that of the store, while it has one, is at `place`. -/
structure Sharing where
  store : Leaf
  arrays : List (List FeatureStructure)
  place : Nat
  alive : List Holder

namespace Sharing

/-- What happens to a store and its snapshots. -/
inductive Event where
  | insert (fs : FeatureStructure)
  | erase (fs : FeatureStructure)
  | clear
  | snapshot
  | drop (i : Nat)

/-- A store of which there are no snapshots yet. -/
def start (store : Leaf) : Sharing := ⟨store, [store.elements], 0, []⟩

/-- Whether a living snapshot holds the array of the store. -/
def shared (s : Sharing) : Bool :=
  s.store.array?.isSome && s.alive.any fun v => v.address == s.place

/-- What a change of the store does to the arrays: it writes in place, or to a new array, or it
drops the array of the store. -/
def write (s : Sharing) (store : Leaf) : Sharing :=
  match store.array? with
  | none => { s with store }
  | some _ =>
    if s.store.writesInPlace && !s.shared then
      { s with store, arrays := s.arrays.set s.place store.elements }
    else { s with store, arrays := s.arrays ++ [store.elements], place := s.arrays.length }

/-- Go on with the store that an insertion or a removal leaves behind. -/
def settle (s : Sharing) (changed : Bool) (store : Leaf) : Sharing :=
  if changed then s.write store else { s with store }

/-- Let the store have an array. -/
def furnish (s : Sharing) : Sharing :=
  match s.store.array? with
  | some _ => s
  | none => { s with arrays := s.arrays ++ [s.store.elements], place := s.arrays.length }

/-- Take a snapshot, which holds the array of the store. -/
def take (s : Sharing) : Sharing :=
  let s := s.furnish
  { s with store := s.store.settled, alive := ⟨s.store.snapshot, s.place⟩ :: s.alive }

/-- The store and its snapshots after one event. -/
def apply (s : Sharing) : Event → Sharing
  | .insert fs =>
    let (outcome, store) := s.store.insert s.shared fs
    s.settle (changedBy outcome) store
  | .erase fs =>
    let (removed, store) := s.store.erase s.shared fs
    s.settle removed store
  | .clear => s.write (s.store.clear s.shared)
  | .snapshot => s.take
  | .drop i => { s with alive := s.alive.eraseIdx i }

/-- The store and its snapshots after some events. -/
def after (s : Sharing) (events : List Event) : Sharing := events.foldl apply s

/-! ### Counting -/

/-- Whether an event changes the store. -/
def mutates (s : Sharing) : Event → Bool
  | .insert fs => changedBy (s.store.insert s.shared fs).1
  | .erase fs => (s.store.erase s.shared fs).1
  | .clear => true
  | .snapshot | .drop _ => false

/-- Whether an event is an insertion or a removal that returns true while a living snapshot holds
the array of the store. -/
def unshares (s : Sharing) : Event → Bool
  | .insert fs => s.shared && (s.store.insert s.shared fs).1.toOption == some true
  | .erase fs => s.shared && (s.store.erase s.shared fs).1
  | .clear | .snapshot | .drop _ => false

/-- How many of some events are of a kind, each when it comes. -/
def count (kind : Sharing → Event → Bool) (s : Sharing) : List Event → Nat
  | [] => 0
  | event :: rest => (kind s event).toNat + count kind (s.apply event) rest

/-! ### Holders of arrays -/

/-- All that hold an array: the living snapshots, and the store while it has one. -/
def holders (s : Sharing) : List Holder :=
  match s.store.array? with
  | some _ => ⟨s.store.snapshot, s.place⟩ :: s.alive
  | none => s.alive

theorem holders_of_some {s : Sharing} {a : ArrayId} (ha : s.store.array? = some a) :
    s.holders = ⟨s.store.snapshot, s.place⟩ :: s.alive := by
  rw [holders, ha]

theorem holders_of_none {s : Sharing} (ha : s.store.array? = none) : s.holders = s.alive := by
  rw [holders, ha]

theorem alive_subset (s : Sharing) : s.alive ⊆ s.holders := by
  intro v hv
  unfold holders
  split
  · exact List.mem_cons_of_mem _ hv
  · exact hv

end Sharing

/-- Holders who hold the same array exactly when they are of one generation, and exactly when they
give it the same identity. What they hold is still in it, and no identity is from later on. -/
structure Told (arrays : List (List FeatureStructure)) (holders : List Holder) : Prop where
  address : ∀ v ∈ holders, ∀ w ∈ holders,
    v.address = w.address ↔ v.snapshot.generation = w.snapshot.generation
  identity : ∀ v ∈ holders, ∀ w ∈ holders,
    v.snapshot.array = w.snapshot.array ↔ v.address = w.address
  contents : ∀ v ∈ holders, arrays[v.address]? = some v.snapshot.elements
  born : ∀ v ∈ holders, v.snapshot.array.born.toNat ≤ v.snapshot.generation.toNat

namespace Told

variable {arrays arrays' : List (List FeatureStructure)} {hs hs' : List Holder} {v : Holder}

theorem mono (h : Told arrays hs) (hsub : hs' ⊆ hs) : Told arrays hs' where
  address v hv w hw := h.address v (hsub hv) w (hsub hw)
  identity v hv w hw := h.identity v (hsub hv) w (hsub hw)
  contents v hv := h.contents v (hsub hv)
  born v hv := h.born v (hsub hv)

/-- Arrays that nobody holds may change. -/
theorem congr (h : Told arrays hs)
    (hsame : ∀ v ∈ hs, arrays'[v.address]? = arrays[v.address]?) : Told arrays' hs :=
  ⟨h.address, h.identity, fun v hv => (hsame v hv).trans (h.contents v hv), h.born⟩

/-- One holder more, who differs from the others in everything. -/
theorem cons (h : Told arrays hs) (hcontents : arrays[v.address]? = some v.snapshot.elements)
    (hborn : v.snapshot.array.born.toNat ≤ v.snapshot.generation.toNat)
    (hapart : ∀ w ∈ hs, v.address ≠ w.address ∧
      v.snapshot.generation ≠ w.snapshot.generation ∧ v.snapshot.array ≠ w.snapshot.array) :
    Told arrays (v :: hs) where
  address := by
    simp only [List.forall_mem_cons]
    refine ⟨⟨by simp, fun w hw => ?_⟩, fun w hw => ⟨?_, h.address w hw⟩⟩
    · exact iff_of_false (hapart w hw).1 (hapart w hw).2.1
    · exact iff_of_false (hapart w hw).1.symm (hapart w hw).2.1.symm
  identity := by
    simp only [List.forall_mem_cons]
    refine ⟨⟨by simp, fun w hw => ?_⟩, fun w hw => ⟨?_, h.identity w hw⟩⟩
    · exact iff_of_false (hapart w hw).2.2 (hapart w hw).1
    · exact iff_of_false (hapart w hw).2.2.symm (hapart w hw).1.symm
  contents := List.forall_mem_cons.mpr ⟨hcontents, h.contents⟩
  born := List.forall_mem_cons.mpr ⟨hborn, h.born⟩

/-- An array is made for a snapshot of a later generation. -/
theorem make (h : Told arrays hs) {now : Snapshot} {elements : List FeatureStructure}
    (helements : now.elements = elements) (hborn : now.array.born = now.generation)
    (hlater : ∀ w ∈ hs, w.snapshot.generation.toNat < now.generation.toNat) :
    Told (arrays ++ [elements]) (⟨now, arrays.length⟩ :: hs) := by
  subst helements
  have hplace : ∀ w ∈ hs, w.address < arrays.length := fun w hw =>
    (List.getElem?_eq_some_iff.mp (h.contents w hw)).1
  refine (h.congr fun w hw => List.getElem?_append_left (hplace w hw)).cons ?_ ?_ ?_
  · exact List.getElem?_concat_length
  · exact Nat.le_of_eq (congrArg UInt64.toNat hborn)
  · intro w hw
    have hlt := hlater w hw
    have hle := h.born w hw
    refine ⟨Nat.ne_of_gt (hplace w hw), ?_, ?_⟩
    · intro heq
      exact Nat.ne_of_gt hlt (congrArg UInt64.toNat heq)
    · intro heq
      rw [← heq, hborn] at hle
      exact Nat.not_le.mpr hlt hle

/-- An array that only one of them holds is written in place. -/
theorem overwrite {old now : Snapshot} {elements : List FeatureStructure} {place : Nat}
    (h : Told arrays (⟨old, place⟩ :: hs)) (helements : now.elements = elements)
    (harray : now.array = old.array) (hle : old.generation.toNat ≤ now.generation.toNat)
    (hlater : ∀ w ∈ hs, w.snapshot.generation.toNat < now.generation.toNat)
    (halone : ∀ w ∈ hs, w.address ≠ place) :
    Told (arrays.set place elements) (⟨now, place⟩ :: hs) := by
  subst helements
  have hplace : place < arrays.length :=
    (List.getElem?_eq_some_iff.mp (h.contents _ List.mem_cons_self)).1
  have hothers := h.mono (List.subset_cons_self _ _)
  refine (hothers.congr fun w hw => List.getElem?_set_ne (halone w hw).symm).cons ?_ ?_ ?_
  · exact List.getElem?_set_self hplace
  · have hborn := h.born _ List.mem_cons_self
    show now.array.born.toNat ≤ now.generation.toNat
    rw [harray]
    exact Nat.le_trans hborn hle
  · intro w hw
    refine ⟨(halone w hw).symm, ?_, ?_⟩
    · intro heq
      exact Nat.ne_of_gt (hlater w hw) (congrArg UInt64.toNat heq)
    · show now.array ≠ w.snapshot.array
      rw [harray, ne_eq, h.identity _ List.mem_cons_self w (List.mem_cons_of_mem _ hw)]
      exact (halone w hw).symm

end Told

namespace Sharing

variable {s : Sharing} {m : Leaf}

/-- A store and its snapshots as they come about: all holders of arrays are told apart, no snapshot
is from later on, and while there is one of the present the store keeps its array. -/
structure Tracked (s : Sharing) : Prop where
  arranged : s.store.Arranged
  told : Told s.arrays s.holders
  past : ∀ v ∈ s.alive, v.snapshot.generation.toNat ≤ s.store.generation.toNat
  present : ∀ v ∈ s.alive, v.snapshot.generation = s.store.generation → s.store.array? ≠ none

/-! ### What becomes of the store -/

@[simp] theorem store_write (s : Sharing) (m : Leaf) : (s.write m).store = m := by
  unfold write
  split
  · rfl
  · split <;> rfl

@[simp] theorem alive_write (s : Sharing) (m : Leaf) : (s.write m).alive = s.alive := by
  unfold write
  split
  · rfl
  · split <;> rfl

@[simp] theorem store_settle (s : Sharing) (changed : Bool) (m : Leaf) :
    (s.settle changed m).store = m := by
  unfold settle
  split
  · exact s.store_write m
  · rfl

@[simp] theorem store_furnish (s : Sharing) : s.furnish.store = s.store := by
  unfold furnish
  split <;> rfl

@[simp] theorem alive_furnish (s : Sharing) : s.furnish.alive = s.alive := by
  unfold furnish
  split <;> rfl

theorem store_insert (s : Sharing) (fs : FeatureStructure) :
    (s.apply (.insert fs)).store = (s.store.insert s.shared fs).2 :=
  s.store_settle ..

theorem store_erase (s : Sharing) (fs : FeatureStructure) :
    (s.apply (.erase fs)).store = (s.store.erase s.shared fs).2 :=
  s.store_settle ..

theorem store_clear (s : Sharing) : (s.apply .clear).store = s.store.clear s.shared :=
  s.store_write _

theorem store_snapshot (s : Sharing) : (s.apply .snapshot).store = s.store.settled :=
  congrArg Leaf.settled s.store_furnish

namespace Tracked

theorem alive (h : s.Tracked) : Told s.arrays s.alive := h.told.mono s.alive_subset

/-- Without an array, the store has moved on from all snapshots. -/
theorem earlier (h : s.Tracked) (ha : s.store.array? = none) :
    ∀ v ∈ s.alive, v.snapshot.generation.toNat < s.store.generation.toNat := by
  intro v hv
  refine Nat.lt_of_le_of_ne (h.past v hv) fun heq => ?_
  exact h.present v hv (UInt64.toNat_inj.mp heq) ha

/-- Where nobody shares the array of the store, no snapshot is at its place. -/
theorem alone {a : ArrayId} (ha : s.store.array? = some a) (hs : s.shared = false) :
    ∀ v ∈ s.alive, v.address ≠ s.place := by
  intro v hv heq
  rw [shared, ha, Option.isSome_some, Bool.true_and, List.any_eq_false] at hs
  exact hs v hv (beq_iff_eq.mpr heq)

/-- **A change leaves the snapshots what they hold.** -/
theorem told_write (h : s.Tracked) (hm : s.store.Rewritten s.shared m)
    (hle : s.store.generation.toNat ≤ m.generation.toNat)
    (hlater : ∀ v ∈ s.alive, v.snapshot.generation.toNat < m.generation.toNat) :
    Told (s.write m).arrays (s.write m).holders := by
  unfold Sharing.write
  split
  next hnone =>
    -- the store holds no array any more
    rw [holders_of_none hnone]
    exact h.alive
  next a ha =>
    have hid := hm.array a ha
    split
    next hplace =>
      -- in place, where nobody else is
      rw [if_pos hplace] at hid
      rw [Bool.and_eq_true, Bool.not_eq_true'] at hplace
      have hold := h.told
      rw [holders_of_some hid] at hold
      have harray : m.snapshot.array = s.store.snapshot.array := by
        rw [Leaf.snapshot_array ha, Leaf.snapshot_array hid]
      rw [holders_of_some ha]
      exact hold.overwrite m.snapshot_elements harray hle hlater (alone hid hplace.2)
    next hplace =>
      -- in a new array
      rw [if_neg hplace] at hid
      have hborn : m.snapshot.array.born = m.generation := by rw [Leaf.snapshot_array ha, hid]
      rw [holders_of_some ha]
      exact h.alive.make m.snapshot_elements hborn hlater

theorem write (h : s.Tracked) (hm : s.store.Rewritten s.shared m)
    (hroom : s.store.generation.toNat + 1 < 2 ^ 64) : (s.write m).Tracked := by
  have hnext := hm.toNat_generation hroom
  have hlater : ∀ v ∈ s.alive, v.snapshot.generation.toNat < m.generation.toNat := fun v hv =>
    hnext ▸ Nat.lt_succ_of_le (h.past v hv)
  refine ⟨?_, h.told_write hm (hnext ▸ Nat.le_succ _) hlater, ?_, ?_⟩
  · rw [store_write]
    exact hm.arranged
  · rw [store_write, alive_write]
    exact fun v hv => Nat.le_of_lt (hlater v hv)
  · rw [store_write, alive_write]
    intro v hv heq
    exact absurd (congrArg UInt64.toNat heq) (Nat.ne_of_lt (hlater v hv))

theorem settle (h : s.Tracked) {changed : Bool} (hm : s.store.Next s.shared changed m)
    (hroom : s.store.generation.toNat + changed.toNat < 2 ^ 64) :
    (s.settle changed m).Tracked ∧
      m.generation.toNat = s.store.generation.toNat + changed.toNat := by
  cases changed with
  | false =>
      obtain rfl : m = s.store := hm
      exact ⟨h, rfl⟩
  | true => exact ⟨h.write hm hroom, Leaf.Rewritten.toNat_generation hm hroom⟩

/-- What is given to a snapshot is the array of the store, or a new one where it had none. -/
theorem furnish (h : s.Tracked) :
    Told s.furnish.arrays (⟨s.store.snapshot, s.furnish.place⟩ :: s.alive) := by
  unfold Sharing.furnish
  split
  next a ha =>
    rw [← holders_of_some ha]
    exact h.told
  next hnone =>
    exact h.alive.make s.store.snapshot_elements (Leaf.snapshot_born hnone) (h.earlier hnone)

theorem take (h : s.Tracked) : s.take.Tracked := by
  obtain ⟨harranged, hsnapshot, harray⟩ := Leaf.settled_spec h.arranged
  have hgeneration : s.store.settled.generation = s.store.generation :=
    congrArg Snapshot.generation hsnapshot
  have htold := h.furnish
  -- the new holder stands beside the store
  have hsub : s.take.holders ⊆ ⟨s.store.snapshot, s.furnish.place⟩ :: s.alive := by
    have ha : s.take.store.array? = some s.store.snapshot.array := by
      simpa [Sharing.take] using harray
    rw [holders_of_some ha]
    simp only [Sharing.take, store_furnish, alive_furnish, hsnapshot]
    exact List.cons_subset.mpr ⟨List.mem_cons_self, List.Subset.refl _⟩
  refine ⟨?_, htold.mono hsub, ?_, ?_⟩
  · simpa [Sharing.take] using harranged
  · simp only [Sharing.take, store_furnish, alive_furnish, hgeneration, List.forall_mem_cons]
    exact ⟨Nat.le_refl _, h.past⟩
  · intro v _ _
    simp [Sharing.take, harray]

/-- **Every event keeps account of the snapshots**, as long as the generations do not overflow. -/
theorem apply (h : s.Tracked) (event : Event)
    (hroom : s.store.generation.toNat + (s.mutates event).toNat < 2 ^ 64) :
    (s.apply event).Tracked ∧ (s.apply event).store.generation.toNat =
      s.store.generation.toNat + (s.mutates event).toNat := by
  cases event with
  | insert fs =>
      rw [store_insert]
      exact h.settle (Leaf.next_insert h.arranged s.shared fs) hroom
  | erase fs =>
      rw [store_erase]
      exact h.settle (Leaf.next_erase h.arranged s.shared fs) hroom
  | clear =>
      rw [store_clear]
      have hnext : s.store.Next s.shared true (s.store.clear s.shared) :=
        s.store.rewritten_clear s.shared
      exact h.settle hnext hroom
  | snapshot =>
      rw [store_snapshot]
      exact ⟨h.take, congrArg _ (congrArg Snapshot.generation (Leaf.settled_spec h.arranged).2.1)⟩
  | drop i =>
      have hsub : s.alive.eraseIdx i ⊆ s.alive := List.eraseIdx_subset
      refine ⟨⟨h.arranged, h.told.mono ?_, fun v hv => h.past v (hsub hv),
        fun v hv => h.present v (hsub hv)⟩, rfl⟩
      cases ha : s.store.array? with
      | none =>
          rw [holders_of_none ha, holders_of_none (s := s.apply (.drop i)) ha]
          exact hsub
      | some a =>
          rw [holders_of_some ha, holders_of_some (s := s.apply (.drop i)) ha]
          exact List.cons_subset_cons _ hsub

/-- **A run keeps account of the snapshots**, with fewer changes than there are generations. -/
theorem after (h : s.Tracked) (events : List Event)
    (hfew : s.store.generation.toNat + s.count mutates events < 2 ^ 64) :
    (s.after events).Tracked := by
  induction events generalizing s with
  | nil => exact h
  | cons event rest ih =>
      rw [count] at hfew
      obtain ⟨happly, hgeneration⟩ := h.apply event (by omega)
      exact ih happly (by omega)

end Tracked

/-! ### What a session knows -/

/-- The snapshots that a session keeps under names or for its iterators. -/
def kept (session : Session) : List Snapshot :=
  session.snapshots.values ++ session.iterators.values.flatMap Session.heldBy

/-- A session that keeps the living snapshots of a store, and no others, and has no other store. -/
structure Shows (session : Session) (owner : Nat) (s : Sharing) : Prop where
  kept : ∀ v, v ∈ kept session ↔ ∃ w ∈ s.alive, w.snapshot = v
  sets : ∀ set ∈ session.sets.values, set.owner = owner
  bags : ∀ b ∈ session.bags.values, b.owner = owner

/-- **Identities tell whether an array is shared**: what a session finds out by them before a change
is what the addresses say. -/
theorem Tracked.leafShared_eq (h : s.Tracked) {session : Session} {owner : Nat}
    (hshows : Shows session owner s) : session.leafShared owner s.store = s.shared := by
  rw [Session.leafShared, shared]
  cases ha : s.store.array? with
  | none => rfl
  | some a =>
      have htold := h.told
      rw [holders_of_some ha] at htold
      -- a living snapshot that knows the array by its identity stands at its place
      have hplace : ∀ w ∈ s.alive, w.snapshot.array = a ↔ w.address = s.place := fun w hw => by
        rw [← Leaf.snapshot_array ha]
        exact htold.identity w (List.mem_cons_of_mem _ hw) _ List.mem_cons_self
      have hsets : (session.sets.values.any fun set => set.owner != owner && set.array == a) =
          false := List.any_eq_false.mpr fun set hset => by simp [hshows.sets set hset]
      have hbags : (session.bags.values.any fun b =>
          b.owner != owner && (Leaf.bag b).array? == some a) = false :=
        List.any_eq_false.mpr fun b hb => by simp [hshows.bags b hb]
      show session.isShared owner a = s.alive.any fun v => v.address == s.place
      rw [Session.isShared, hsets, hbags, Bool.or_false, Bool.or_false, ← List.any_flatMap,
        ← List.any_append, Bool.eq_iff_iff]
      simp only [List.any_eq_true, beq_iff_eq]
      constructor
      · rintro ⟨v, hv, hva⟩
        obtain ⟨w, hw, rfl⟩ := (hshows.kept v).mp hv
        exact ⟨w, hw, (hplace w hw).mp hva⟩
      · rintro ⟨w, hw, heq⟩
        exact ⟨w.snapshot, (hshows.kept _).mpr ⟨w, hw, rfl⟩, (hplace w hw).mpr heq⟩

/-! ### Copies -/

/-- A set counts the changes that find its array shared, but for clearings. -/
theorem copies_apply {set : OrderedSet} (hs : s.store = .ordered set) (hset : set.Sound)
    (event : Event) : ∃ t, (s.apply event).store = .ordered t ∧ t.Sound ∧
      t.copies = set.copies + (s.unshares event).toNat := by
  cases event with
  | insert fs =>
      rw [store_insert, unshares, hs, Leaf.insert]
      obtain hok | ⟨t, hok, ht, hcopies⟩ := OrderedSet.insert_cases hset s.shared fs
      · rw [hok]
        exact ⟨set, rfl, hset, by cases s.shared <;> rfl⟩
      · rw [hok]
        exact ⟨t, rfl, ht.sound, by rw [hcopies]; cases s.shared <;> rfl⟩
  | erase fs =>
      rw [store_erase, unshares, hs, Leaf.erase]
      obtain hok | ⟨t, hok, ht, hcopies⟩ := OrderedSet.erase_cases hset s.shared fs
      · rw [hok]
        exact ⟨set, rfl, hset, by cases s.shared <;> rfl⟩
      · rw [hok]
        exact ⟨t, rfl, ht.sound, by rw [hcopies]; cases s.shared <;> rfl⟩
  | clear =>
      rw [store_clear, hs]
      exact ⟨_, rfl, set.sound_clear s.shared, (set.rewritten_clear s.shared).2⟩
  | snapshot =>
      rw [store_snapshot, hs]
      exact ⟨set, rfl, hset, rfl⟩
  | drop i => exact ⟨set, hs, hset, rfl⟩

theorem copies_after {set : OrderedSet} (hs : s.store = .ordered set) (hset : set.Sound)
    (events : List Event) : ∃ t, (s.after events).store = .ordered t ∧
      t.copies = set.copies + s.count unshares events := by
  induction events generalizing s set with
  | nil => exact ⟨set, hs, rfl⟩
  | cons event rest ih =>
      obtain ⟨t, ht, hsound, hcopies⟩ := copies_apply hs hset event
      obtain ⟨u, hu, hcount⟩ := ih ht hsound
      refine ⟨u, hu, ?_⟩
      rw [hcount, hcopies, count, Nat.add_assoc]

/-! ### Any history -/

/-- A store that was just made: an ordered set of any regime, or a bag of any threshold. -/
inductive Made : Leaf → Prop
  | set (comparator : Comparator) (regime : Regime) (owner capacity : Nat) :
      Made (.ordered (.empty comparator regime owner capacity))
  | bag (comparator : Comparator) (threshold owner : Nat) :
      Made (.bag (.empty comparator threshold owner))

theorem Made.tracked {store : Leaf} (h : Made store) :
    (start store).Tracked ∧ store.generation.toNat = 0 := by
  cases h with
  | set comparator regime owner capacity =>
      refine ⟨⟨OrderedSet.sound_empty .., ?_, nofun, nofun⟩, rfl⟩
      -- the set itself is the only holder of its array
      rw [holders_of_some (s := start _) rfl]
      exact Told.cons ⟨nofun, nofun, nofun, nofun⟩ rfl (Nat.le_refl _) nofun
  | bag comparator threshold owner =>
      exact ⟨⟨nofun, ⟨nofun, nofun, nofun, nofun⟩, nofun, nofun⟩, rfl⟩

/-- Living snapshots that share an array exactly when they are of one generation, and then hold the
same elements, which are still in the array. A session that keeps them knows by the identities of
their arrays whether the next change has to take a copy. -/
structure ByGeneration (s : Sharing) : Prop where
  address : ∀ v ∈ s.alive, ∀ w ∈ s.alive,
    v.address = w.address ↔ v.snapshot.generation = w.snapshot.generation
  shares : ∀ v ∈ s.alive, ∀ w ∈ s.alive,
    v.snapshot.sharesArray w.snapshot = true ↔ v.snapshot.generation = w.snapshot.generation
  elements : ∀ v ∈ s.alive, ∀ w ∈ s.alive,
    v.snapshot.generation = w.snapshot.generation → v.snapshot.elements = w.snapshot.elements
  intact : ∀ v ∈ s.alive, s.arrays[v.address]? = some v.snapshot.elements
  known : ∀ session owner, Shows session owner s → session.leafShared owner s.store = s.shared

theorem Tracked.byGeneration (h : s.Tracked) : s.ByGeneration where
  address := h.alive.address
  shares v hv w hw := by
    rw [Snapshot.sharesArray, beq_iff_eq, h.alive.identity v hv w hw, h.alive.address v hv w hw]
  elements v hv w hw hgeneration := by
    have hv' := h.alive.contents v hv
    rw [(h.alive.address v hv w hw).mpr hgeneration, h.alive.contents w hw] at hv'
    exact (Option.some.inj hv').symm
  intact := h.alive.contents
  known _ _ hshows := h.leafShared_eq hshows

/-- **Living snapshots share their array exactly when they are of one generation**, whatever
happened to the store, and a set has counted one copy for each insertion and each removal that
returned true while a living snapshot held its array. -/
theorem shares_by_generation {store : Leaf} (h : Made store) (events : List Event)
    (hfew : (start store).count mutates events < 2 ^ 64) :
    ((start store).after events).ByGeneration ∧
    ∀ set, store = .ordered set → ∃ t, ((start store).after events).store = .ordered t ∧
      t.copies = (start store).count unshares events := by
  obtain ⟨htracked, hgeneration⟩ := h.tracked
  have hstart : (start store).store.generation.toNat = 0 := hgeneration
  refine ⟨(htracked.after events (by omega)).byGeneration, ?_⟩
  rintro _ rfl
  cases h with
  | set comparator regime owner capacity =>
      obtain ⟨t, ht, hcopies⟩ := copies_after (s := start _) rfl (OrderedSet.sound_empty ..) events
      exact ⟨t, ht, hcopies.trans (Nat.zero_add _)⟩

open Index.Sample (mark)

/-- Two snapshots of one mark. The next mark replaces it in a set, which takes a copy, and makes a
bag outgrow its threshold; the third goes in place. A snapshot of that is dropped before the
removal, and another is not. -/
theorem shares_by_generation_replaced :
    let set := Leaf.ordered (.empty Index.Sample.definition.comparator (.onePerKey .replace) 1 0)
    let bag := Leaf.bag (.empty (.identity Index.Sample.system ⟨1⟩) 1 2)
    let events := [.insert (mark 0 5), .snapshot, .snapshot, .insert (mark 1 5),
      .insert (mark 2 3), .snapshot, .drop 0, .erase (mark 2 3), .snapshot, .erase (mark 1 5)]
    ((start set).count mutates events = 5 ∧ (start bag).count mutates events = 5) ∧
    ((start set).after events).alive.map (·.address) = [1, 0, 0] ∧
    ((start set).after events).alive.map (·.snapshot.generation) = [4, 1, 1] ∧
    ((start set).after events).ByGeneration ∧
    (start set).count unshares events = 2 ∧
    (∃ t, ((start set).after events).store = .ordered t ∧ t.copies = 2) ∧
    ((start bag).after events).alive.map (·.address) = [2, 1, 1] ∧
    ((start bag).after events).ByGeneration := by
  intro set bag events
  have hset : Made set := .set ..
  have hbag : Made bag := .bag ..
  have hcount : (start set).count unshares events = 2 := by decide
  obtain ⟨hshared, hcopies⟩ := shares_by_generation hset events (by decide)
  obtain ⟨t, ht, hcopied⟩ := hcopies _ rfl
  obtain ⟨hshared', -⟩ := shares_by_generation hbag events (by decide)
  exact ⟨⟨by decide, by decide⟩, by decide, by decide, hshared, hcount,
    ⟨t, ht, hcopied.trans hcount⟩, by decide, hshared'⟩

end Sharing
end FeatureIndex
