import FeatureIndex.Proofs.Positioning
import Mathlib.Data.List.Induction

/-!
# Sets with one structure per key

Structures with equal keys are one class. An ordered set that holds every key once is a map from
these classes to structures (`KeyMap`), listed in the order of its keys (`KeyMap.Lists`): a class
that is empty takes what is inserted, a class that is not goes by the policy, and a removal empties
the class of a structure when it is that structure which the class holds.

`OrderedSet.Keeps` is the invariant that ties a set to its map. Every change keeps it
(`Keeps.apply`), so that after any history the set lists its map and answers as the map does
(`OrderedSet.keyMap_spec`). After insertions alone the map has the first or the last arrival of
each class, as the policy prefers them (`KeyMap.after_arrivals`).
-/

namespace FeatureIndex

open Std (OrientedCmp ReflCmp TransCmp)

/-! ### Classes of keys -/

namespace Comparator

/-- Structures with equal keys count as one. -/
def keySetoid (c : Comparator) : Setoid FeatureStructure where
  r a b := c.compare a b = .eq
  iseqv := ⟨fun _ => ReflCmp.compare_self, OrientedCmp.eq_symm, TransCmp.eq_trans⟩

/-- A class of structures with equal keys. -/
def KeyClass (c : Comparator) : Type := Quotient c.keySetoid

/-- The class of a structure. -/
def keyClass (c : Comparator) (fs : FeatureStructure) : c.KeyClass := Quotient.mk c.keySetoid fs

theorem keyClass_eq_iff {c : Comparator} {a b : FeatureStructure} :
    c.keyClass a = c.keyClass b ↔ c.compare a b = .eq :=
  ⟨Quotient.exact, fun h => Quotient.sound h⟩

instance (c : Comparator) : DecidableEq c.KeyClass :=
  have (a b : FeatureStructure) : Decidable (c.keySetoid.r a b) :=
    inferInstanceAs (Decidable (c.compare a b = .eq))
  Quotient.decidableEq

end Comparator

/-! ### Maps from classes -/

/-- At most one structure for each class of keys. -/
def KeyMap (c : Comparator) : Type := c.KeyClass → Option FeatureStructure

namespace KeyMap

variable {c : Comparator} {m : KeyMap c} {l l' : List FeatureStructure} {a e fs : FeatureStructure}

/-- The first of a list in each class. -/
def first (c : Comparator) (l : List FeatureStructure) : KeyMap c :=
  fun k => l.find? fun fs => c.keyClass fs = k

/-- The map with something else, or nothing, for the class of a structure. -/
def put (m : KeyMap c) (fs : FeatureStructure) (o : Option FeatureStructure) : KeyMap c :=
  fun k => if k = c.keyClass fs then o else m k

/-- Insert a structure, and tell whether the map changed. An empty class takes it. One that holds a
structure keeps that one, or has it replaced by any other. -/
def insert (m : KeyMap c) (policy : DuplicatePolicy) (fs : FeatureStructure) : Bool × KeyMap c :=
  match m (c.keyClass fs), policy with
  | none, _ => (true, m.put fs (some fs))
  | some _, .reject => (false, m)
  | some e, .replace => if e.id = fs.id then (false, m) else (true, m.put fs (some fs))

/-- Empty the class of a structure, if what it holds is this very structure, and tell whether it
was. -/
def erase (m : KeyMap c) (fs : FeatureStructure) : Bool × KeyMap c :=
  match m (c.keyClass fs) with
  | some e => if e.id = fs.id then (true, m.put fs none) else (false, m)
  | none => (false, m)

/-- The map after one change. -/
def apply (policy : DuplicatePolicy) (m : KeyMap c) : OrderedSet.Change → KeyMap c
  | .insert _ fs => (m.insert policy fs).2
  | .erase _ fs => (m.erase fs).2
  | .clear _ => first c []

/-- The map after some changes. -/
def after (policy : DuplicatePolicy) (m : KeyMap c) (changes : List OrderedSet.Change) : KeyMap c :=
  changes.foldl (apply policy) m

/-! ### Listings -/

/-- A list of what a map holds, in the order of the keys. -/
structure Lists (m : KeyMap c) (l : List FeatureStructure) : Prop where
  ascending : Ascending c.compare l
  mem_iff : ∀ k fs, m k = some fs ↔ fs ∈ l ∧ c.keyClass fs = k

namespace Lists

/-- In an ascending list, the first of a class is all of it. -/
theorem of_ascending (hl : Ascending c.compare l) : (first c l).Lists l := by
  constructor
  · exact hl
  · intro k fs
    constructor
    · intro hfirst
      exact ⟨List.mem_of_find?_eq_some hfirst, by simpa using List.find?_some hfirst⟩
    · rintro ⟨hfs, rfl⟩
      have hsome : (first c l (c.keyClass fs)).isSome := by
        rw [first, List.find?_isSome]
        exact ⟨fs, hfs, by simp⟩
      obtain ⟨e, he⟩ := Option.isSome_iff_exists.mp hsome
      have hclass : c.keyClass e = c.keyClass fs := by simpa using List.find?_some he
      rw [he, hl.eq_of_compare (List.mem_of_find?_eq_some he) hfs
        (Comparator.keyClass_eq_iff.mp hclass)]

theorem eq_some_iff (h : m.Lists l) :
    m (c.keyClass fs) = some e ↔ e ∈ l ∧ c.compare e fs = .eq := by
  rw [h.mem_iff, Comparator.keyClass_eq_iff]

theorem ne_eq_of_eq_none (h : m.Lists l) (hnone : m (c.keyClass fs) = none) :
    ∀ e ∈ l, c.compare e fs ≠ .eq := by
  intro e he heq
  rw [h.eq_some_iff.mpr ⟨he, heq⟩] at hnone
  cases hnone

/-- A list that differs in one class only is that of a map which does. -/
theorem put {o : Option FeatureStructure} (h : m.Lists l) (hl : Ascending c.compare l')
    (hother : ∀ a, c.compare a fs ≠ .eq → (a ∈ l' ↔ a ∈ l))
    (hclass : ∀ a, o = some a ↔ a ∈ l' ∧ c.compare a fs = .eq) : (m.put fs o).Lists l' := by
  constructor
  · exact hl
  · intro k a
    rw [KeyMap.put]
    split
    next hk =>
      rw [hk, Comparator.keyClass_eq_iff]
      exact hclass a
    next hk =>
      rw [h.mem_iff]
      apply and_congr_left
      rintro rfl
      rw [Comparator.keyClass_eq_iff] at hk
      exact (hother a hk).symm

theorem inserted (h : m.Lists l) (hins : Insertion c.compare fs l true l') :
    (m.put fs (some fs)).Lists l' := by
  have hl := hins.ascending h.ascending
  apply h.put hl
  · intro a hne
    exact hins.mem_iff_of_ne hne
  · intro a
    -- the new structure is all that the class has
    constructor
    · rintro ⟨⟩
      exact ⟨hins.mem_self, ReflCmp.compare_self⟩
    · rintro ⟨ha, heq⟩
      rw [hl.eq_of_compare ha hins.mem_self heq]

theorem removed {i : Nat} (h : m.Lists l) (he : l[i]? = some e) (heq : c.compare e fs = .eq)
    (hsame : e.same fs = true) : (m.put fs none).Lists (l.eraseIdx i) := by
  have hrem : Removal c.compare fs l true (l.eraseIdx i) := .removed he heq hsame
  have hmem := fun a => hrem.mem_iff h.ascending (a := a)
  apply h.put (h.ascending.eraseIdx i)
  · intro a hne
    rw [hmem]
    apply and_iff_left
    rintro ⟨hae, -⟩
    exact hne hae
  · intro a
    -- all that the class has is what goes
    simp only [reduceCtorEq, false_iff, not_and]
    intro ha hae
    obtain ⟨hal, hnot⟩ := (hmem a).mp ha
    apply hnot
    rw [h.ascending.eq_of_compare hal (List.mem_of_getElem? he)
      (TransCmp.eq_trans hae (OrientedCmp.eq_symm heq))]
    exact ⟨heq, hsame⟩

end Lists

/-! ### What changes do -/

variable {policy : DuplicatePolicy} {xs : List FeatureStructure}

theorem insert_of_eq_none (h : m (c.keyClass fs) = none) :
    m.insert policy fs = (true, m.put fs (some fs)) := by
  simp only [insert, h]

theorem insert_reject (h : m (c.keyClass fs) = some e) : m.insert .reject fs = (false, m) := by
  simp only [insert, h]

theorem insert_replace (h : m (c.keyClass fs) = some e) :
    m.insert .replace fs = if e.id = fs.id then (false, m) else (true, m.put fs (some fs)) := by
  simp only [insert, h]

theorem erase_of_eq (h : m (c.keyClass fs) = some e) (hid : e.id = fs.id) :
    m.erase fs = (true, m.put fs none) := by
  simp only [erase, h, if_pos hid]

theorem erase_of_ne (h : ∀ e, m (c.keyClass fs) = some e → e.id ≠ fs.id) :
    m.erase fs = (false, m) := by
  unfold erase
  split
  next e he => rw [if_neg (h e he)]
  next => rfl

/-! ### Insertions alone -/

/-- A structure at the head is the first of its class. -/
theorem first_cons : first c (fs :: xs) = (first c xs).put fs (some fs) := by
  funext k
  rw [first, put]
  by_cases hk : c.keyClass fs = k
  · simp [hk]
  · simp [hk, Ne.symm hk, first]

/-- A structure at the end is the first of its class only if there is no other. -/
theorem first_concat : first c (xs ++ [fs]) =
    if first c xs (c.keyClass fs) = none then (first c xs).put fs (some fs) else first c xs := by
  funext k
  have hconcat : first c (xs ++ [fs]) k =
      (first c xs k).or (if c.keyClass fs = k then some fs else none) := by
    simp only [first, List.find?_append, List.find?_singleton, decide_eq_true_eq]
  rw [hconcat]
  by_cases hk : c.keyClass fs = k
  · subst hk
    cases h : first c xs (c.keyClass fs) <;> simp [h, put]
  · have hput : (first c xs).put fs (some fs) k = first c xs k := by simp [put, Ne.symm hk]
    rw [if_neg hk, Option.or_none]
    split
    · exact hput.symm
    · rfl

end KeyMap

/-- The arrivals in the order in which a policy prefers them: the first one keeps its place, or the
last one gets it. -/
def DuplicatePolicy.preference (xs : List FeatureStructure) : DuplicatePolicy → List FeatureStructure
  | .reject => xs
  | .replace => xs.reverse

namespace KeyMap

theorem after_append (m : KeyMap c) (policy : DuplicatePolicy)
    (changes changes' : List OrderedSet.Change) :
    m.after policy (changes ++ changes') = (m.after policy changes).after policy changes' :=
  List.foldl_append

/-- One more arrival, which did not come before. -/
theorem insert_first {policy : DuplicatePolicy} {xs : List FeatureStructure}
    (hfs : fs.id ∉ xs.map FeatureStructure.id) :
    ((first c (policy.preference xs)).insert policy fs).2 =
      first c (policy.preference (xs ++ [fs])) := by
  cases policy with
  | reject =>
      show ((first c xs).insert .reject fs).2 = first c (xs ++ [fs])
      rw [first_concat]
      cases h : first c xs (c.keyClass fs) with
      | none => simp [insert_of_eq_none h]
      | some e => simp [insert_reject h]
  | replace =>
      show ((first c xs.reverse).insert .replace fs).2 = first c (xs ++ [fs]).reverse
      rw [List.reverse_append, List.reverse_singleton, List.singleton_append, first_cons]
      cases h : first c xs.reverse (c.keyClass fs) with
      | none => rw [insert_of_eq_none h]
      | some e =>
          have he : e ∈ xs := by simpa using List.mem_of_find?_eq_some h
          have hne : e.id ≠ fs.id := by
            intro heq
            exact hfs (List.mem_map.mpr ⟨e, he, heq⟩)
          rw [insert_replace h, if_neg hne]

/-- **After insertions alone, each class has the arrival that the policy prefers**, however the
classes took turns. -/
theorem after_arrivals {policy : DuplicatePolicy} {arrivals : List (Bool × FeatureStructure)}
    (h : (arrivals.map fun a => a.2.id).Nodup) :
    (first c []).after policy (arrivals.map fun a => .insert a.1 a.2) =
      first c (policy.preference (arrivals.map Prod.snd)) := by
  induction arrivals using List.reverseRecOn with
  | nil => cases policy <;> rfl
  | append_singleton arrivals a ih =>
      rw [List.map_append, List.nodup_append] at h
      obtain ⟨hnodup, -, hnew⟩ := h
      have ha : a.2.id ∉ (arrivals.map Prod.snd).map FeatureStructure.id := by
        intro hmem
        rw [List.map_map] at hmem
        exact hnew _ hmem _ List.mem_cons_self rfl
      rw [List.map_append, List.map_append, after_append, ih hnodup]
      exact insert_first ha

end KeyMap

/-! ### Sets that hold every key once -/

namespace OrderedSet

variable {c : Comparator} {policy : DuplicatePolicy} {s : OrderedSet} {m : KeyMap c}

/-- A set that keeps a map, with the policy of the map. -/
structure Keeps (c : Comparator) (policy : DuplicatePolicy) (s : OrderedSet) (m : KeyMap c) :
    Prop where
  comparator : s.comparator = c
  regime : s.regime = .onePerKey policy
  lists : m.Lists s.elements

namespace Keeps

theorem order_eq (h : Keeps c policy s m) : s.order = c.compare := by
  rw [OrderedSet.order_eq, h.regime, h.comparator]
  rfl

theorem sound (h : Keeps c policy s m) : s.Sound := by
  rw [Sound, h.order_eq]
  exact h.lists.ascending

theorem congr {t : OrderedSet} {m' : KeyMap c} (h : Keeps c policy s m) (ht : t.Alike s)
    (hlists : m'.Lists t.elements) : Keeps c policy t m' :=
  ⟨ht.1.trans h.comparator, ht.2.trans h.regime, hlists⟩

/-- What a map holds for a class stands at the place of the class. -/
theorem exists_occupant {e fs : FeatureStructure} (h : Keeps c policy s m)
    (he : m (c.keyClass fs) = some e) : ∃ i, s.elements[i]? = some e ∧ c.compare e fs = .eq ∧
      s.occupant? fs = some (i, e) := by
  obtain ⟨hmem, heq⟩ := h.lists.eq_some_iff.mp he
  obtain ⟨i, hi, rfl⟩ := List.getElem_of_mem hmem
  have hget := List.getElem?_eq_getElem hi
  refine ⟨i, hget, heq, (occupant?_eq_some h.sound).mpr ⟨hget, ?_⟩⟩
  rw [h.order_eq]
  exact heq

/-- **An insertion answers as the map does**, and the set keeps the new map. -/
theorem insert (h : Keeps c policy s m) (shared : Bool) (fs : FeatureStructure) :
    (s.insert shared fs).1 = .ok (m.insert policy fs).1 ∧
      Keeps c policy (s.insert shared fs).2 (m.insert policy fs).2 := by
  cases hm : m (c.keyClass fs) with
  | none =>
      have hnone := h.lists.ne_eq_of_eq_none hm
      rw [KeyMap.insert_of_eq_none hm, insert_vacant h.sound shared (h.order_eq ▸ hnone)]
      refine ⟨rfl, h.congr (alike_writable s shared) ?_⟩
      show KeyMap.Lists _ ((s.writable shared).elements.insertIdx (s.place fs) fs)
      rw [elements_writable, place_eq h.sound, h.order_eq]
      exact h.lists.inserted (.added hnone)
  | some e =>
      obtain ⟨i, he, heq, hocc⟩ := h.exists_occupant hm
      cases policy with
      | reject =>
          have hins : s.insert shared fs = (.ok false, s) := by
            simp only [OrderedSet.insert, hocc, h.regime]
          rw [KeyMap.insert_reject hm, hins]
          exact ⟨rfl, h⟩
      | replace =>
          have hins : s.insert shared fs = if e.id = fs.id then (.ok false, s)
              else (.ok true, (s.writable shared).replaceAt i fs) := by
            simp only [OrderedSet.insert, hocc, h.regime, FeatureStructure.same_iff_id]
          rw [KeyMap.insert_replace hm, hins]
          split
          next => exact ⟨rfl, h⟩
          next hid =>
            have hne : e.same fs = false := by
              rw [Bool.eq_false_iff]
              exact mt FeatureStructure.same_iff_id.mp hid
            refine ⟨rfl, h.congr (alike_writable s shared) ?_⟩
            show KeyMap.Lists _ ((s.writable shared).elements.set i fs)
            rw [elements_writable]
            exact h.lists.inserted (.replaced he heq hne)

/-- **A removal answers as the map does**, and the set keeps the new map. -/
theorem erase (h : Keeps c policy s m) (shared : Bool) (fs : FeatureStructure) :
    (s.erase shared fs).1 = (m.erase fs).1 ∧
      Keeps c policy (s.erase shared fs).2 (m.erase fs).2 := by
  obtain ⟨changed, t, hok, hnext, hrem⟩ := erase_spec h.sound shared fs
  rw [hok]
  rw [h.order_eq] at hrem
  generalize ht : t.elements = l at hrem
  cases hrem with
  | removed he heq hsame =>
      have hm := h.lists.eq_some_iff.mpr ⟨List.mem_of_getElem? he, heq⟩
      rw [KeyMap.erase_of_eq hm (FeatureStructure.same_iff_id.mp hsame)]
      refine ⟨rfl, h.congr hnext.alike ?_⟩
      rw [ht]
      exact h.lists.removed he heq hsame
  | absent hnone =>
      have hne : ∀ e, m (c.keyClass fs) = some e → e.id ≠ fs.id := by
        intro e he hid
        obtain ⟨hmem, heq⟩ := h.lists.eq_some_iff.mp he
        have hsame := hnone e hmem heq
        rw [FeatureStructure.same_iff_id.mpr hid] at hsame
        cases hsame
      rw [KeyMap.erase_of_ne hne, hnext.same rfl]
      exact ⟨rfl, h⟩

theorem apply (h : Keeps c policy s m) (change : Change) :
    Keeps c policy (s.apply change) (m.apply policy change) := by
  cases change with
  | insert shared fs => exact (h.insert shared fs).2
  | erase shared fs => exact (h.erase shared fs).2
  | clear shared =>
      apply h.congr (s.alike_clear shared)
      show KeyMap.Lists _ (s.clear shared).elements
      rw [elements_clear]
      exact KeyMap.Lists.of_ascending List.Pairwise.nil

theorem after (h : Keeps c policy s m) (changes : List Change) :
    Keeps c policy (s.after changes) (m.after policy changes) := by
  induction changes generalizing s m with
  | nil => exact h
  | cons change rest ih => exact ih (h.apply change)

/-- A look-up finds what a removal would take out. -/
theorem contains (h : Keeps c policy s m) (fs : FeatureStructure) :
    s.contains fs = (m.erase fs).1 := by
  rw [← (h.erase false fs).1, OrderedSet.erase, OrderedSet.contains]
  cases s.find? fs <;> rfl

end Keeps

/-- A set that is the listing of a map and does as the map does: it ascends, it answers what the map
answers, and it stays the very same set when the answer is that nothing changed. -/
structure Realizes (s : OrderedSet) (policy : DuplicatePolicy) (m : KeyMap c) : Prop where
  lists : m.Lists s.elements
  insert : ∀ shared fs, (s.insert shared fs).1 = .ok (m.insert policy fs).1
  erase : ∀ shared fs, (s.erase shared fs).1 = (m.erase fs).1
  contains : ∀ fs, s.contains fs = (m.erase fs).1
  kept : ∀ shared fs, (m.insert policy fs).1 = false → (s.insert shared fs).2 = s
  stayed : ∀ shared fs, (m.erase fs).1 = false → (s.erase shared fs).2 = s

theorem Keeps.realizes (h : Keeps c policy s m) : s.Realizes policy m where
  lists := h.lists
  insert shared fs := (h.insert shared fs).1
  erase shared fs := (h.erase shared fs).1
  contains fs := h.contains fs
  kept shared fs hfalse := by
    apply insert_unchanged h.sound
    rw [(h.insert shared fs).1, hfalse]
  stayed shared fs hfalse := by
    apply erase_unchanged h.sound
    rw [(h.erase shared fs).1, hfalse]

/-- **A set that holds every key once is a map from keys to structures.** After any history, with
any structures, the set lists the map that the same history makes, and answers as this map does. If
there was nothing to begin with and only insertions followed, of structures of distinct ids, then
each class holds its first arrival or its last one, as the policy says. -/
theorem keyMap_spec (h : s.Reachable) (hregime : s.regime = .onePerKey policy) :
    (∀ changes : List Change, (s.after changes).Realizes policy
      ((KeyMap.first s.comparator s.elements).after policy changes)) ∧
    (s.elements = [] → ∀ arrivals : List (Bool × FeatureStructure),
      (arrivals.map fun a => a.2.id).Nodup →
      (KeyMap.first s.comparator (policy.preference (arrivals.map Prod.snd))).Lists
        (s.after (arrivals.map fun a => .insert a.1 a.2)).elements) := by
  have horder : s.order = s.comparator.compare := by
    rw [order_eq, hregime]
    rfl
  have hkeeps : Keeps s.comparator policy s (KeyMap.first s.comparator s.elements) := by
    refine ⟨rfl, hregime, KeyMap.Lists.of_ascending ?_⟩
    rw [← horder]
    exact h.sound
  constructor
  · intro changes
    exact (hkeeps.after changes).realizes
  · intro hempty arrivals hnodup
    rw [hempty] at hkeeps
    rw [← KeyMap.after_arrivals hnodup]
    exact (hkeeps.after _).lists

open Index.Sample (mark word)

/-- Two marks at place 5 and, between them, a mark and a word at place 3. Those that come first stay
unless they are replaced, and a removal takes none but the one that stayed. -/
theorem keyMap_marks :
    let c := Index.Sample.definition.comparator
    let arrivals := [(false, mark 0 5), (true, mark 1 3), (false, mark 2 5), (false, word 3 3)]
    let inserts := arrivals.map fun a => Change.insert a.1 a.2
    let first := empty c (.onePerKey .reject) 0 0
    let last := empty c (.onePerKey .replace) 0 0
    let erased := inserts ++ [.erase true (mark 0 5), .erase false (word 3 3)]
    (first.Reachable ∧ first.regime = .onePerKey .reject ∧ last.Reachable ∧
      last.regime = .onePerKey .replace ∧ (arrivals.map fun a => a.2.id).Nodup) ∧
    (first.after inserts).elements = [mark 1 3, mark 0 5] ∧
    (KeyMap.first c [mark 0 5, mark 1 3, mark 2 5, word 3 3]).Lists (first.after inserts).elements ∧
    (last.after inserts).elements = [word 3 3, mark 2 5] ∧
    (KeyMap.first c [word 3 3, mark 2 5, mark 1 3, mark 0 5]).Lists (last.after inserts).elements ∧
    (last.after erased).elements = [mark 2 5] ∧
    (last.after erased).Realizes .replace ((KeyMap.first c []).after .replace erased) := by
  intro c arrivals inserts first last erased
  have hfirst : first.Reachable := .empty ..
  have hlast : last.Reachable := .empty ..
  have hnodup : (arrivals.map fun a => a.2.id).Nodup := by decide
  have hreject := keyMap_spec hfirst rfl
  have hreplace := keyMap_spec hlast rfl
  exact ⟨⟨hfirst, rfl, hlast, rfl, hnodup⟩, by decide, hreject.2 rfl arrivals hnodup, by decide,
    hreplace.2 rfl arrivals hnodup, by decide, hreplace.1 erased⟩

end OrderedSet
end FeatureIndex
