import FeatureIndex.Proofs.Leaf
import Mathlib.Data.List.Forall2
import Std.Data.ExtTreeMap

/-!
# Bags are finite maps

A bag that has no keys behaves as a finite map from ids to structures, listed by ascending ids, in
its small form as well as once it has been promoted. The map, with what can be seen of its history,
is a `Register`. `Bag.Tracks` is the invariant that ties a bag and the snapshots taken from it to a
register; every event keeps it (`Tracks.apply`), so that after any history all answers of the bag
are those of the register (`Bag.answers_after`). A register knows of no threshold and no sharing.
-/

namespace FeatureIndex

open Comparator (compareIds compareIds_eq_eq)

/-! ### Registers -/

/-- A finite map from ids to structures. `changes` counts the changes so far, `peak` is the greatest
number of members since the last clearing, and `taken` lists what the map held, and how many changes
it had seen, whenever a snapshot was taken. -/
structure Register where
  members : Std.ExtTreeMap Nat FeatureStructure
  changes : UInt64
  peak : Nat
  taken : List (List FeatureStructure × UInt64)

/-- What happens to a bag. `shared` tells whether a snapshot holds the array that is written to. -/
inductive Bag.Event where
  | insert (shared : Bool) (fs : FeatureStructure)
  | erase (shared : Bool) (fs : FeatureStructure)
  | clear
  | snapshot

namespace Register

/-- The register of nothing. -/
def empty : Register := ⟨∅, 0, 0, []⟩

/-- Whether a structure of that id is held. -/
def holds (r : Register) (fs : FeatureStructure) : Bool := r.members.contains fs.id.val

/-- The structures by ascending ids. -/
def listing (r : Register) : List FeatureStructure := r.members.toList.map (·.2)

/-- The register with other members, when that is a change. -/
def update (r : Register) (changed : Bool) (members : Std.ExtTreeMap Nat FeatureStructure) :
    Register :=
  if changed then
    { r with members, changes := r.changes + 1, peak := max r.peak members.size }
  else r

/-- Register a structure, unless one of its id is held. -/
def insert (r : Register) (fs : FeatureStructure) : Register :=
  r.update (!r.holds fs) (r.members.insert fs.id.val fs)

/-- Strike off what has the id of a structure. -/
def erase (r : Register) (fs : FeatureStructure) : Register :=
  r.update (r.holds fs) (r.members.erase fs.id.val)

/-- Strike off everything. -/
def clear (r : Register) : Register := { r with members := ∅, changes := r.changes + 1, peak := 0 }

/-- Write down what is held. -/
def snapshot (r : Register) : Register := { r with taken := r.taken ++ [(r.listing, r.changes)] }

/-- The register after one event. -/
def apply (r : Register) : Bag.Event → Register
  | .insert _ fs => r.insert fs
  | .erase _ fs => r.erase fs
  | .clear => r.clear
  | .snapshot => r.snapshot

/-- The register after some events. -/
def after (r : Register) (events : List Bag.Event) : Register := events.foldl apply r

/-- Each structure is registered under its id. -/
def Proper (r : Register) : Prop :=
  ∀ (n : Nat) (fs : FeatureStructure), r.members[n]? = some fs → fs.id.val = n

variable {r : Register} {fs a : FeatureStructure}

theorem mem_listing (h : r.Proper) : a ∈ r.listing ↔ r.members[a.id.val]? = some a := by
  rw [listing, List.mem_map]
  constructor
  · rintro ⟨⟨n, _⟩, hn, rfl⟩
    have hn := Std.ExtTreeMap.mem_toList_iff_getElem?_eq_some.mp hn
    rw [← h n _ hn] at hn
    exact hn
  · exact fun ha => ⟨_, Std.ExtTreeMap.mem_toList_iff_getElem?_eq_some.mpr ha, rfl⟩

theorem ascending_listing (h : r.Proper) : Ascending compareIds r.listing := by
  refine List.pairwise_map.mpr (r.members.ordered_keys_toList.imp_of_mem ?_)
  rintro ⟨n, a⟩ ⟨m, b⟩ ha hb hlt
  rw [← h n a (Std.ExtTreeMap.mem_toList_iff_getElem?_eq_some.mp ha),
    ← h m b (Std.ExtTreeMap.mem_toList_iff_getElem?_eq_some.mp hb)] at hlt
  exact hlt

@[simp] theorem length_listing (r : Register) : r.listing.length = r.members.size := by
  rw [listing, List.length_map, Std.ExtTreeMap.length_toList]

theorem holds_iff (h : r.Proper) :
    r.holds fs = true ↔ ∃ e ∈ r.listing, compareIds e fs = .eq := by
  rw [holds, Std.ExtTreeMap.contains_eq_isSome_getElem?, Option.isSome_iff_exists]
  constructor
  · rintro ⟨e, he⟩
    have hid := h _ e he
    refine ⟨e, (mem_listing h).mpr ?_, compareIds_eq_eq.mpr hid⟩
    rw [hid]
    exact he
  · rintro ⟨e, he, heq⟩
    rw [← compareIds_eq_eq.mp heq]
    exact ⟨e, (mem_listing h).mp he⟩

theorem proper_insert (h : r.Proper) (fs : FeatureStructure) : (r.insert fs).Proper := by
  rw [insert, update]
  split
  · intro n a ha
    rw [Std.ExtTreeMap.getElem?_insert] at ha
    split at ha
    next heq =>
      cases ha
      exact Nat.compare_eq_eq.mp heq
    next => exact h n a ha
  · exact h

theorem proper_erase (h : r.Proper) (fs : FeatureStructure) : (r.erase fs).Proper := by
  rw [erase, update]
  split
  · intro n a ha
    rw [Std.ExtTreeMap.getElem?_erase] at ha
    split at ha
    next => cases ha
    next => exact h n a ha
  · exact h

theorem proper_empty (changes : UInt64) (peak : Nat)
    (taken : List (List FeatureStructure × UInt64)) : Proper ⟨∅, changes, peak, taken⟩ := by
  intro n a ha
  rw [Std.ExtTreeMap.getElem?_empty] at ha
  cases ha

/-- A list by ascending ids of what a register holds is its listing. -/
theorem eq_listing (h : r.Proper) {l : List FeatureStructure} (hl : Ascending compareIds l)
    (hmem : ∀ a, a ∈ l ↔ r.members[a.id.val]? = some a) : l = r.listing :=
  hl.ext (ascending_listing h) fun a => by rw [hmem, mem_listing h]

/-! ### Changes of a listing -/

variable {changed : Bool} {l : List FeatureStructure}

/-- What is inserted into the listing by ids is registered. -/
theorem insertion_listing (h : r.Proper) (hins : Insertion compareIds fs r.listing changed l) :
    changed = !r.holds fs ∧ l = (r.insert fs).listing := by
  have hproper := proper_insert h fs
  have hasc := hins.ascending (ascending_listing h)
  rw [insert] at hproper ⊢
  cases hins with
  | kept he heq =>
      have hin : r.holds fs = true := (holds_iff h).mpr ⟨_, he, heq⟩
      rw [hin]
      exact ⟨rfl, rfl⟩
  | replaced he heq hne =>
      rw [FeatureStructure.same_iff_compareIds.mpr heq] at hne
      cases hne
  | added hnone =>
      have hout : r.holds fs = false := by
        rw [Bool.eq_false_iff, ne_eq, holds_iff h]
        rintro ⟨e, he, heq⟩
        exact hnone e he heq
      rw [hout] at hproper ⊢
      refine ⟨rfl, eq_listing hproper hasc fun a => ?_⟩
      rw [List.mem_insertIdx List.countP_le_length]
      show a = fs ∨ a ∈ r.listing ↔ (r.members.insert fs.id.val fs)[a.id.val]? = some a
      rw [Std.ExtTreeMap.getElem?_insert]
      split
      next heq =>
        -- nothing of that id was there before
        have hid : compareIds a fs = .eq := compareIds_eq_eq.mpr (Nat.compare_eq_eq.mp heq).symm
        have hnot : a ∉ r.listing := fun ha => hnone a ha hid
        simp [hnot, eq_comm]
      next hne =>
        have hother : a ≠ fs := by
          rintro rfl
          exact hne (Nat.compare_eq_eq.mpr rfl)
        rw [or_iff_right hother, mem_listing h]

/-- What is removed from the listing by ids is struck off. -/
theorem removal_listing (h : r.Proper) (hrem : Removal compareIds fs r.listing changed l) :
    changed = r.holds fs ∧ l = (r.erase fs).listing := by
  have hproper := proper_erase h fs
  have hasc := hrem.ascending (ascending_listing h)
  rw [erase] at hproper ⊢
  cases hrem with
  | @removed i e he heq hsame =>
      have hlisting := ascending_listing h
      obtain ⟨hi, rfl⟩ := List.getElem?_eq_some_iff.mp he
      have hin : r.holds fs = true := (holds_iff h).mpr ⟨_, List.getElem_mem hi, heq⟩
      rw [hin] at hproper ⊢
      refine ⟨rfl, eq_listing hproper hasc fun a => ?_⟩
      rw [← hlisting.nodup.erase_getElem _ hi, hlisting.nodup.mem_erase_iff]
      show a ≠ r.listing[i] ∧ a ∈ r.listing ↔ (r.members.erase fs.id.val)[a.id.val]? = some a
      rw [Std.ExtTreeMap.getElem?_erase]
      split
      next hid =>
        -- the removed structure is the only one of its id
        have hai : compareIds a r.listing[i] = .eq := by
          rw [Std.TransCmp.congr_right heq]
          exact compareIds_eq_eq.mpr (Nat.compare_eq_eq.mp hid).symm
        refine iff_of_false ?_ nofun
        rintro ⟨hne, ha⟩
        exact hne (hlisting.eq_of_compare ha (List.getElem_mem hi) hai)
      next hid =>
        have hne : a ≠ r.listing[i] := by
          rintro rfl
          exact hid (Nat.compare_eq_eq.mpr (compareIds_eq_eq.mp heq).symm)
        rw [mem_listing h]
        exact and_iff_right hne
  | absent hnone =>
      have hout : r.holds fs = false := by
        rw [Bool.eq_false_iff, ne_eq, holds_iff h]
        rintro ⟨e, he, heq⟩
        have hsame := FeatureStructure.same_iff_compareIds.mpr heq
        rw [hnone e he heq] at hsame
        cases hsame
      rw [hout]
      exact ⟨rfl, rfl⟩

end Register

namespace Bag

variable {b : Bag} {fs : FeatureStructure}

@[simp] theorem snapshot_elements (b : Bag) : b.snapshot.elements = b.elements :=
  Leaf.snapshot_elements (.bag b)

@[simp] theorem snapshot_generation (b : Bag) : b.snapshot.generation = b.generation := by
  unfold snapshot
  split <;> rfl

/-! ### When a bag is promoted -/

theorem promoteIfLarge_form (h : b.Sound) :
    b.promoteIfLarge.2.threshold = b.threshold ∧
      b.promoteIfLarge.2.isPromoted = (b.isPromoted || decide (b.threshold < b.size)) := by
  unfold promoteIfLarge
  split
  next table sorted hform =>
    have hsmall : b.isPromoted = false := by rw [isPromoted, hform]
    have hsize : b.size = table.length := by simp only [size, hform]
    rw [hsmall, hsize, Bool.false_or]
    split
    next hlarge =>
      obtain ⟨t, hok, -⟩ :=
        OrderedSet.ofAscending_spec b.owner b.generation h.ascending_compareFully
      rw [hok]
      exact ⟨rfl, (decide_eq_true hlarge).symm⟩
    next hlarge => exact ⟨rfl, hsmall.trans (decide_eq_false hlarge).symm⟩
  next set hform =>
    have hbig : b.isPromoted = true := by rw [isPromoted, hform]
    rw [hbig]
    exact ⟨rfl, rfl⟩

/-- An insertion promotes the bag when it outgrows its threshold by it. -/
theorem insert_form (h : b.Sound) (hfits : b.isPromoted = false → b.size ≤ b.threshold)
    (shared : Bool) (fs : FeatureStructure) :
    (b.insert shared fs).2.threshold = b.threshold ∧
      (b.insert shared fs).2.isPromoted =
        (b.isPromoted || decide (b.threshold < (b.insert shared fs).2.size)) := by
  unfold insert
  split
  next table sorted hform =>
    have hsmall : b.isPromoted = false := by rw [isPromoted, hform]
    split
    next hin =>
      refine ⟨rfl, ?_⟩
      rw [hsmall, Bool.false_or, eq_comm, decide_eq_false_iff_not]
      exact Nat.not_lt.mpr (hfits hsmall)
    next hout =>
      have hgrown := (h.grown hform hout).2
      obtain ⟨c, hok, hsound, -, hmembers, -⟩ := promoteIfLarge_spec hgrown
      have hpromoted := promoteIfLarge_form hgrown
      simp only [hok] at hpromoted ⊢
      rw [hsmall, hsound.size_eq, hmembers, ← hgrown.size_eq]
      exact hpromoted
  next set hform =>
    have hbig : b.isPromoted = true := by rw [isPromoted, hform]
    rw [hbig, Bool.true_or]
    split <;> exact ⟨rfl, rfl⟩

theorem erase_form (hfits : b.isPromoted = false → b.size ≤ b.threshold) (shared : Bool)
    (fs : FeatureStructure) :
    (b.erase shared fs).2.threshold = b.threshold ∧
      (b.erase shared fs).2.isPromoted =
        (b.isPromoted || decide (b.threshold < (b.erase shared fs).2.size)) := by
  unfold erase
  split
  next table sorted hform =>
    have hsmall : b.isPromoted = false := by rw [isPromoted, hform]
    have hsize : b.size = table.length := by simp only [size, hform]
    have hle := hfits hsmall
    rw [hsmall, Bool.false_or]
    split
    · refine ⟨rfl, (decide_eq_false ?_).symm⟩
      have hfilter : (table.filter fun m => m.1 != fs.id.val).length ≤ table.length :=
        List.length_filter_le ..
      show ¬ b.threshold < (table.filter fun m => m.1 != fs.id.val).length
      omega
    · exact ⟨rfl, hsmall.trans (decide_eq_false (Nat.not_lt.mpr hle)).symm⟩
  next set hform =>
    have hbig : b.isPromoted = true := by rw [isPromoted, hform]
    rw [hbig, Bool.true_or]
    split
    · exact ⟨rfl, rfl⟩
    · exact ⟨rfl, hbig⟩

/-- Taking a snapshot changes nothing that can be seen. -/
theorem settled_spec (h : b.Sound) :
    b.settled.Sound ∧ b.settled.elements = b.elements ∧ b.settled.generation = b.generation ∧
      b.settled.threshold = b.threshold ∧ b.settled.isPromoted = b.isPromoted := by
  unfold settled
  split
  next table sorted hform =>
    -- what is remembered is the array that the snapshot was given
    refine ⟨⟨h.keyless, (h.tidy hform).1, ?_⟩, rfl, rfl, rfl, ?_⟩
    · rintro _ ⟨⟩
      exact h.elements_small hform
    · rw [isPromoted, isPromoted, hform]
  next => exact ⟨h, rfl, rfl, rfl, rfl⟩

/-! ### Histories -/

/-- A bag and the snapshots that were taken from it. -/
structure Watched where
  bag : Bag
  taken : List Snapshot

namespace Watched

/-- The bag after one event. -/
def apply (w : Watched) : Event → Watched
  | .insert shared fs => { w with bag := (w.bag.insert shared fs).2 }
  | .erase shared fs => { w with bag := (w.bag.erase shared fs).2 }
  | .clear => { w with bag := w.bag.clear }
  | .snapshot => ⟨w.bag.settled, w.taken ++ [w.bag.snapshot]⟩

/-- The bag after some events. -/
def after (w : Watched) (events : List Event) : Watched := events.foldl apply w

end Watched

/-- What ties a bag and its snapshots to a register. -/
structure Tracks (threshold : Nat) (w : Watched) (r : Register) : Prop where
  proper : r.Proper
  sound : w.bag.Sound
  threshold_eq : w.bag.threshold = threshold
  elements : w.bag.elements = r.listing
  generation : w.bag.generation = r.changes
  peak : r.members.size ≤ r.peak
  promoted : w.bag.isPromoted = decide (threshold < r.peak)
  taken : w.taken.map (fun s => (s.elements, s.generation)) = r.taken

namespace Tracks

variable {threshold : Nat} {w : Watched} {r : Register}

theorem size_eq (h : Tracks threshold w r) : w.bag.size = r.members.size := by
  rw [h.sound.size_eq, h.elements, r.length_listing]

theorem fits (h : Tracks threshold w r) (hsmall : w.bag.isPromoted = false) :
    w.bag.size ≤ w.bag.threshold := by
  rw [h.promoted, decide_eq_false_iff_not] at hsmall
  have := h.peak
  rw [h.size_eq, h.threshold_eq]
  omega

/-- A change that the bag and the register count alike keeps them together. -/
theorem update (h : Tracks threshold w r) {c : Bag} {changed : Bool}
    {members : Std.ExtTreeMap Nat FeatureStructure} (hnext : w.bag.Successor changed c)
    (hproper : (r.update changed members).Proper)
    (hlisting : c.elements = (r.update changed members).listing)
    (hform : c.threshold = w.bag.threshold ∧
      c.isPromoted = (w.bag.isPromoted || decide (w.bag.threshold < c.size))) :
    Tracks threshold ⟨c, w.taken⟩ (r.update changed members) := by
  cases changed with
  | false =>
      obtain rfl := hnext.same rfl
      exact h
  | true =>
      have hsize : c.size = members.size := by
        rw [hnext.sound.size_eq, hlisting]
        exact Register.length_listing _
      refine ⟨hproper, hnext.sound, hform.1.trans h.threshold_eq, hlisting, ?_,
        Nat.le_max_right .., ?_, h.taken⟩
      · show c.generation = r.changes + 1
        rw [hnext.newer rfl, h.generation]
      · show c.isPromoted = decide (threshold < max r.peak members.size)
        rw [hform.2, h.promoted, h.threshold_eq, hsize, ← Bool.decide_or, decide_eq_decide]
        omega

/-- **Every event keeps a bag and its register together.** -/
theorem apply (h : Tracks threshold w r) (event : Event) :
    Tracks threshold (w.apply event) (r.apply event) := by
  cases event with
  | insert shared fs =>
      obtain ⟨changed, c, hok, hnext, hins⟩ := insert_spec h.sound shared fs
      have hform := insert_form h.sound h.fits shared fs
      rw [h.elements] at hins
      obtain ⟨rfl, hlisting⟩ := Register.insertion_listing h.proper hins
      rw [Watched.apply, hok]
      rw [hok] at hform
      exact h.update hnext (Register.proper_insert h.proper fs) hlisting hform
  | erase shared fs =>
      obtain ⟨changed, c, hok, hnext, hrem⟩ := erase_spec h.sound shared fs
      have hform := erase_form h.fits shared fs
      rw [h.elements] at hrem
      obtain ⟨rfl, hlisting⟩ := Register.removal_listing h.proper hrem
      rw [Watched.apply, hok]
      rw [hok] at hform
      exact h.update hnext (Register.proper_erase h.proper fs) hlisting hform
  | clear =>
      refine ⟨Register.proper_empty _ _ _, sound_clear h.sound, h.threshold_eq, ?_, ?_,
        Nat.le_refl _, ?_, h.taken⟩
      · rfl
      · exact congrArg (· + 1) h.generation
      · rfl
  | snapshot =>
      obtain ⟨hsound, helements, hgeneration, hthreshold, hpromoted⟩ := settled_spec h.sound
      refine ⟨h.proper, hsound, hthreshold.trans h.threshold_eq, helements.trans h.elements,
        hgeneration.trans h.generation, h.peak, hpromoted.trans h.promoted, ?_⟩
      show (w.taken ++ [w.bag.snapshot]).map _ = r.taken ++ [(r.listing, r.changes)]
      rw [List.map_append, h.taken, List.map_singleton, snapshot_elements, snapshot_generation,
        h.elements, h.generation]

theorem after (h : Tracks threshold w r) (events : List Event) :
    Tracks threshold (w.after events) (r.after events) := by
  induction events generalizing w r with
  | nil => exact h
  | cons event rest ih => exact ih (h.apply event)

end Tracks

theorem tracks_empty (ts : TypeSystem) (type : TypeCode) (threshold owner : Nat) :
    Tracks threshold ⟨empty (.identity ts type) threshold owner, []⟩ .empty := by
  refine ⟨Register.proper_empty _ _ _, sound_empty ts type threshold owner, rfl, ?_, rfl, ?_, ?_,
    rfl⟩
  · rfl
  · exact Nat.le_refl _
  · rfl

/-! ### Answers -/

/-- A bag whose answers are those of a register: what it holds and how it lists it, what an
insertion or a removal would report, how many changes there were, and what its snapshots hold and
whether they are still what the bag holds. It is promoted once it has outgrown its threshold, and
its own check passes. -/
structure Answers (threshold : Nat) (w : Watched) (r : Register) : Prop where
  contains : ∀ fs, w.bag.contains fs = r.holds fs
  insert : ∀ shared fs, (w.bag.insert shared fs).1 = .ok (!r.holds fs)
  erase : ∀ shared fs, (w.bag.erase shared fs).1 = r.holds fs
  size : w.bag.size = r.members.size
  generation : w.bag.generation = r.changes
  snapshot : w.bag.snapshot.elements = r.listing
  ascending : r.listing.Pairwise fun a b => a.id.val < b.id.val
  taken : w.taken.map (fun s => (s.elements, w.bag.snapshot.sameGeneration s)) =
    r.taken.map fun (l, changes) => (l, r.changes == changes)
  promoted : w.bag.isPromoted = true ↔ threshold < r.peak
  checked : w.bag.check = .ok ()

theorem Tracks.answers {threshold : Nat} {w : Watched} {r : Register} (h : Tracks threshold w r) :
    Answers threshold w r where
  contains fs := by
    rw [Bool.eq_iff_iff, contains_iff h.sound, Register.holds_iff h.proper, h.elements]
    simp only [FeatureStructure.same_iff_compareIds, and_self]
  insert shared fs := by
    obtain ⟨changed, c, hok, -, hins⟩ := insert_spec h.sound shared fs
    rw [h.elements] at hins
    rw [hok, (Register.insertion_listing h.proper hins).1]
  erase shared fs := by
    obtain ⟨changed, c, hok, -, hrem⟩ := erase_spec h.sound shared fs
    rw [h.elements] at hrem
    rw [hok, (Register.removal_listing h.proper hrem).1]
  size := h.size_eq
  generation := h.generation
  snapshot := by rw [snapshot_elements, h.elements]
  ascending := (Register.ascending_listing h.proper).imp Comparator.compareIds_eq_lt.mp
  taken := by
    rw [← h.taken, List.map_map]
    apply List.map_congr_left
    intro s _
    simp only [Snapshot.sameGeneration, snapshot_generation, h.generation, Function.comp_apply]
  promoted := by rw [h.promoted, decide_eq_true_eq]
  checked := h.sound.check

/-- **A bag without keys answers as a finite map from ids to structures does**, whatever its
threshold is, and whatever happened to it. -/
theorem answers_after (ts : TypeSystem) (type : TypeCode) (threshold owner : Nat)
    (events : List Event) :
    Answers threshold (Watched.after ⟨empty (.identity ts type) threshold owner, []⟩ events)
      (Register.empty.after events) :=
  ((tracks_empty ts type threshold owner).after events).answers

end Bag
end FeatureIndex
