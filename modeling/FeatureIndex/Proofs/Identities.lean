import FeatureIndex.Proofs.Positioning
import Mathlib.Data.Finset.Card

/-!
# Sorted sets are sets of structures

As long as no two structures share an id, equal by keys and id are only those that are the same. A
sorted set is then a set of structures like any other, in the one order that these have: what it
holds follows from the history as for sets without an order (`kept`), and where two histories lead
to the same structures, the two listings are the same as well.

`OrderedSet.Over` says that a set and its history are about structures without such clones. Every
change keeps it and does what it would to a plain set (`Over.apply`), and `canonical_spec` is what
follows for whole histories.
-/

namespace FeatureIndex.OrderedSet

variable {c : Comparator} {S : Set FeatureStructure} {s : OrderedSet} {a fs : FeatureStructure}

/-! ### Plain sets -/

/-- The change is about structures of a set only. -/
def Change.Within (S : Set FeatureStructure) : Change → Prop
  | .insert _ fs | .erase _ fs => fs ∈ S
  | .clear _ => True

/-- What a change leaves of a set of structures. -/
def Change.keep (H : Finset FeatureStructure) : Change → Finset FeatureStructure
  | .insert _ fs => Insert.insert fs H
  | .erase _ fs => H.erase fs
  | .clear _ => ∅

/-- What some changes leave of a set of structures. -/
def kept (H : Finset FeatureStructure) (changes : List Change) : Finset FeatureStructure :=
  changes.foldl Change.keep H

theorem Change.keep_within {H : Finset FeatureStructure} {change : Change}
    (hin : change.Within S) (hH : ∀ fs ∈ H, fs ∈ S) : ∀ fs ∈ change.keep H, fs ∈ S := by
  intro fs hfs
  cases change <;> grind [Change.keep, Change.Within]

/-- A set that lists the structures of `H` in the order of keys and ids, which can be done in one
way only, and that answers for every structure of `S` by whether `H` has it. -/
structure Canonical (c : Comparator) (S : Set FeatureStructure) (H : Finset FeatureStructure)
    (s : OrderedSet) : Prop where
  ascending : Ascending c.compareFully s.elements
  mem_iff : ∀ fs, fs ∈ s.elements ↔ fs ∈ H
  unique : ∀ l, Ascending c.compareFully l → (∀ fs, fs ∈ l ↔ fs ∈ H) → l = s.elements
  insert : ∀ shared, ∀ fs ∈ S, (s.insert shared fs).1 = .ok (decide (fs ∉ H))
  erase : ∀ shared, ∀ fs ∈ S, (s.erase shared fs).1 = decide (fs ∈ H)
  contains : ∀ fs ∈ S, s.contains fs = decide (fs ∈ H)
  find : ∀ fs ∈ S, ∀ i, s.find? fs = some i ↔ s.elements[i]? = some fs

/-! ### Structures without clones -/

/-- A sorted set of structures of `S`, where equal ids mean the same structure. -/
structure Over (S : Set FeatureStructure) (c : Comparator) (s : OrderedSet) : Prop where
  coherent : S.InjOn FeatureStructure.id
  reachable : s.Reachable
  regime : s.regime = .sorted
  comparator : s.comparator = c
  within : ∀ fs ∈ s.elements, fs ∈ S

namespace Over

theorem order_eq (h : s.Over S c) : s.order = c.compareFully := by
  rw [OrderedSet.order_eq, h.regime, h.comparator]
  rfl

/-- No element is equal to a structure but this very structure. -/
theorem order_eq_eq (h : s.Over S c) (hfs : fs ∈ S) :
    ∀ e ∈ s.elements, s.order e fs = .eq ↔ e = fs := by
  intro e he
  constructor
  · intro heq
    rw [h.order_eq] at heq
    have hid := (Comparator.compareFully_eq_eq.mp heq).2
    exact h.coherent (h.within e he) hfs (StructureId.ext hid)
  · rintro rfl
    exact Std.ReflCmp.compare_self

theorem matches_iff (h : s.Over S c) (hfs : fs ∈ S) (ha : a ∈ s.elements) :
    s.order a fs = .eq ∧ a.same fs = true ↔ a = fs := by
  rw [h.order_eq_eq hfs a ha]
  constructor
  · intro hmatch
    exact hmatch.1
  · rintro rfl
    exact ⟨rfl, a.same_self⟩

/-- What a change leaves in the set is what it leaves of its structures. -/
theorem mem_apply (h : s.Over S c) {change : Change} (hin : change.Within S) :
    a ∈ (s.apply change).elements ↔ a ∈ change.keep s.elements.toFinset := by
  cases change with
  | insert shared fs =>
      obtain ⟨changed, t, hok, -, hins⟩ := insert_spec h.reachable.sound shared fs
      rw [apply, hok, Change.keep, Finset.mem_insert, List.mem_toFinset]
      exact hins.mem_iff (h.order_eq_eq hin)
  | erase shared fs =>
      obtain ⟨changed, t, hok, -, hrem⟩ := erase_spec h.reachable.sound shared fs
      rw [apply, hok, Change.keep, Finset.mem_erase, List.mem_toFinset, and_comm]
      rw [hrem.mem_iff h.reachable.sound]
      apply and_congr_right
      intro ha
      rw [h.matches_iff hin ha]
  | clear shared => simp [apply, Change.keep]

/-- One change: the set goes on to be over `S`, and holds what a plain set would hold. -/
theorem apply (h : s.Over S c) {change : Change} (hin : change.Within S) :
    (s.apply change).Over S c ∧
      (s.apply change).elements.toFinset = change.keep s.elements.toFinset := by
  obtain ⟨-, hcomparator, hregime⟩ := sound_apply h.reachable.sound change
  constructor
  · refine ⟨h.coherent, h.reachable.change change, hregime.trans h.regime,
      hcomparator.trans h.comparator, ?_⟩
    intro a ha
    rw [h.mem_apply hin] at ha
    apply Change.keep_within hin ?_ a ha
    simpa using h.within
  · ext a
    rw [List.mem_toFinset]
    exact h.mem_apply hin

theorem after (h : s.Over S c) {changes : List Change}
    (hin : ∀ change ∈ changes, change.Within S) :
    (s.after changes).Over S c ∧
      (s.after changes).elements.toFinset = kept s.elements.toFinset changes := by
  induction changes generalizing s with
  | nil => exact ⟨h, rfl⟩
  | cons change rest ih =>
      rw [List.forall_mem_cons] at hin
      obtain ⟨hover, hheld⟩ := h.apply hin.1
      rw [kept, List.foldl_cons, ← hheld]
      exact ih hover hin.2

/-- Such a set answers by what it holds. -/
theorem canonical (h : s.Over S c) : s.Canonical c S s.elements.toFinset := by
  have hsound := h.reachable.sound
  have hascending : Ascending c.compareFully s.elements := by
    rw [← h.order_eq]
    exact hsound
  constructor
  case ascending => exact hascending
  case mem_iff => simp
  case unique =>
    intro l hl hmem
    apply hl.ext hascending
    simpa using hmem
  case insert =>
    intro shared fs hfs
    obtain ⟨changed, t, hok, -, hins⟩ := insert_spec hsound shared fs
    rw [hok, hins.changed_eq (h.order_eq_eq hfs)]
    simp
  case erase =>
    intro shared fs hfs
    obtain ⟨changed, t, hok, -, hrem⟩ := erase_spec hsound shared fs
    rw [hok, hrem.changed_eq (h.order_eq_eq hfs)]
    simp
  case contains =>
    intro fs hfs
    rw [Bool.eq_iff_iff, contains_iff hsound, decide_eq_true_eq, List.mem_toFinset]
    constructor
    · rintro ⟨e, he, hmatch⟩
      rw [← (h.matches_iff hfs he).mp hmatch]
      exact he
    · intro hmem
      exact ⟨fs, hmem, (h.matches_iff hfs hmem).mpr rfl⟩
  case find =>
    intro fs hfs i
    rw [find?_eq_some hsound]
    constructor
    · rintro ⟨e, he, hmatch⟩
      rw [← (h.matches_iff hfs (List.mem_of_getElem? he)).mp hmatch]
      exact he
    · intro hget
      exact ⟨fs, hget, (h.matches_iff hfs (List.mem_of_getElem? hget)).mpr rfl⟩

end Over

/-- **A sorted set is a set of structures, in canonical order.** After any history over structures
that have ids of their own, it lists what the same history leaves of a plain set, and it answers by
whether that has the structure. Two histories that lead to the same structures lead to the same
listing, in whatever order they had their changes. -/
theorem canonical_spec (c : Comparator) :
    (∀ (S : Set FeatureStructure) (s : OrderedSet), s.Over S c → ∀ changes : List Change,
      (∀ change ∈ changes, change.Within S) →
      (s.after changes).Canonical c S (kept s.elements.toFinset changes)) ∧
    (∀ (S T : Set FeatureStructure) (s t : OrderedSet), s.Over S c → t.Over T c →
      ∀ changes changes' : List Change,
      (∀ change ∈ changes, change.Within S) → (∀ change ∈ changes', change.Within T) →
      kept s.elements.toFinset changes = kept t.elements.toFinset changes' →
      (s.after changes).elements = (t.after changes').elements) := by
  have hall : ∀ (S : Set FeatureStructure) (s : OrderedSet), s.Over S c →
      ∀ changes : List Change, (∀ change ∈ changes, change.Within S) →
      (s.after changes).Canonical c S (kept s.elements.toFinset changes) := by
    intro S s h changes hin
    obtain ⟨hover, hheld⟩ := h.after hin
    rw [← hheld]
    exact hover.canonical
  refine ⟨hall, ?_⟩
  intro S T s t hs ht changes changes' hin hin' hkept
  have hrun := hall S s hs changes hin
  have hrun' := hall T t ht changes' hin'
  apply hrun'.unique _ hrun.ascending
  intro fs
  rw [hrun.mem_iff, hkept]

open Index.Sample (mark word)

/-- Two marks at one place and a word before them. They are listed alike whether they came one after
the other or a fourth one had come and gone. -/
theorem canonical_marks :
    let c := Index.Sample.definition.comparator
    let S : Set FeatureStructure := {mark 0 5, mark 1 5, word 2 3, mark 3 4}
    let s := empty c .sorted 0 0
    let changes := [.insert false (mark 0 5), .insert true (mark 1 5), .insert false (word 2 3)]
    let changes' := [.insert false (word 2 3), .insert false (mark 3 4), .insert true (mark 1 5),
      .erase false (mark 3 4), .insert false (mark 0 5), .insert false (word 2 3)]
    s.Over S c ∧ (∀ change ∈ changes, change.Within S) ∧ (∀ change ∈ changes', change.Within S) ∧
    kept s.elements.toFinset changes = kept s.elements.toFinset changes' ∧
    (s.after changes).elements = (s.after changes').elements ∧
    (s.after changes).elements = [word 2 3, mark 0 5, mark 1 5] ∧
    (s.after changes).contains (mark 3 4) = false ∧
    (s.after changes).find? (mark 1 5) = some 2 := by
  intro c S s changes changes'
  have hover : s.Over S c := by
    refine ⟨?_, .empty .., rfl, rfl, by simp [s, empty]⟩
    rintro a ha b hb hid
    revert hid
    rcases ha with rfl | rfl | rfl | rfl <;> rcases hb with rfl | rfl | rfl | rfl <;> decide
  have hin : ∀ change ∈ changes, change.Within S := by
    simp [changes, Change.Within, S]
  have hin' : ∀ change ∈ changes', change.Within S := by
    simp [changes', Change.Within, S]
  have hkept : kept s.elements.toFinset changes = kept s.elements.toFinset changes' := by decide
  obtain ⟨hone, htwo⟩ := canonical_spec c
  have hrun := hone S s hover changes hin
  refine ⟨hover, hin, hin', hkept, htwo S S s s hover hover changes changes' hin hin' hkept,
    by decide, ?_, ?_⟩
  · rw [hrun.contains (mark 3 4) (by simp [S])]
    decide
  · rw [hrun.find (mark 1 5) (by simp [S])]
    decide

end FeatureIndex.OrderedSet
