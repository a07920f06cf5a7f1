import FeatureIndex.Proofs.Ascending
import FeatureIndex.Proofs.Order
import FeatureIndex.Store.OrderedSet

/-!
# Ordered sets stay ascending

An ordered set is sound when its elements ascend strictly in the order of its regime. Then every
look-up by bisection finds what it looks for, and the check at the end of an insertion never fails.

What a change makes of the elements is said by two relations on lists, which the other stores share:
`Insertion` (a structure is kept out, takes the place of another, or goes in at its place) and
`Removal` (a structure goes, or stays away). `OrderedSet.insert_spec` and `OrderedSet.erase_spec`
say of every change what it is and which set it leaves behind, and `OrderedSet.inOrder_after` what
holds after any history of changes.
-/

namespace FeatureIndex

open Std (OrientedCmp ReflCmp TransCmp)

/-- What inserting `fs` makes of an ascending list, and whether that counts as a change. -/
inductive Insertion (cmp : FeatureStructure → FeatureStructure → Ordering) (fs : FeatureStructure)
    (l : List FeatureStructure) : Bool → List FeatureStructure → Prop
  | kept {e : FeatureStructure} (he : e ∈ l) (heq : cmp e fs = .eq) : Insertion cmp fs l false l
  | replaced {i : Nat} {e : FeatureStructure} (he : l[i]? = some e) (heq : cmp e fs = .eq)
      (hne : e.same fs = false) : Insertion cmp fs l true (l.set i fs)
  | added (hnone : ∀ e ∈ l, cmp e fs ≠ .eq) :
      Insertion cmp fs l true (l.insertIdx (l.countP fun e => cmp e fs == .lt) fs)

/-- What removing `fs` makes of a list, and whether that counts as a change. -/
inductive Removal (cmp : FeatureStructure → FeatureStructure → Ordering) (fs : FeatureStructure)
    (l : List FeatureStructure) : Bool → List FeatureStructure → Prop
  | removed {i : Nat} {e : FeatureStructure} (he : l[i]? = some e) (heq : cmp e fs = .eq)
      (hsame : e.same fs = true) : Removal cmp fs l true (l.eraseIdx i)
  | absent (hnone : ∀ e ∈ l, cmp e fs = .eq → e.same fs = false) : Removal cmp fs l false l

variable {cmp : FeatureStructure → FeatureStructure → Ordering} {fs : FeatureStructure}
  {l l' : List FeatureStructure} {changed : Bool}

theorem FeatureStructure.same_iff {a b : FeatureStructure} :
    a.same b = true ↔ a.id.val = b.id.val := beq_iff_eq

theorem FeatureStructure.same_iff_id {a b : FeatureStructure} : a.same b = true ↔ a.id = b.id :=
  same_iff.trans ⟨StructureId.ext, congrArg StructureId.val⟩

@[simp] theorem FeatureStructure.same_self (a : FeatureStructure) : a.same a = true :=
  same_iff.mpr rfl

namespace Insertion

theorem ascending [TransCmp cmp] (h : Insertion cmp fs l changed l') (hl : Ascending cmp l) :
    Ascending cmp l' := by
  cases h with
  | kept => exact hl
  | replaced he heq => exact hl.set he heq
  | added hnone => exact hl.insertIdx hnone

/-- Nothing but the new structure comes in. -/
theorem mem (h : Insertion cmp fs l changed l') {a : FeatureStructure} (ha : a ∈ l') :
    a = fs ∨ a ∈ l := by
  cases h with
  | kept => exact .inr ha
  | replaced => exact (List.mem_or_eq_of_mem_set ha).symm
  | added => exact (List.mem_insertIdx List.countP_le_length).mp ha

/-- Whether a structure is there that is not equal to the new one, stays as it was. -/
theorem mem_iff_of_ne [TransCmp cmp] (h : Insertion cmp fs l changed l') {a : FeatureStructure}
    (hne : cmp a fs ≠ .eq) : a ∈ l' ↔ a ∈ l := by
  have hfs : a ≠ fs := by
    rintro rfl
    exact hne ReflCmp.compare_self
  refine ⟨fun ha => (h.mem ha).resolve_left hfs, fun ha => ?_⟩
  cases h with
  | kept => exact ha
  | @replaced i e he heq =>
      obtain ⟨j, hj, rfl⟩ := List.getElem_of_mem ha
      -- the one that was replaced is equal to the new one, so it stood elsewhere
      have hij : i ≠ j := by
        rintro rfl
        rw [List.getElem?_eq_getElem hj] at he
        cases he
        exact hne heq
      apply List.mem_of_getElem? (i := j)
      rw [List.getElem?_set_ne hij, List.getElem?_eq_getElem hj]
  | added => exact (List.mem_insertIdx List.countP_le_length).mpr (.inr ha)

/-- A structure that made a change is there. -/
theorem mem_self (h : Insertion cmp fs l true l') : fs ∈ l' := by
  cases h with
  | replaced he =>
      obtain ⟨hi, rfl⟩ := List.getElem?_eq_some_iff.mp he
      exact List.mem_set hi fs
  | added => exact (List.mem_insertIdx List.countP_le_length).mpr (.inl rfl)

/-- What was found equal to some element still is, and so is what is equal to the new structure. -/
theorem exists_equal_iff [TransCmp cmp] (h : Insertion cmp fs l changed l')
    (x : FeatureStructure) :
    (∃ e ∈ l', cmp e x = .eq) ↔ (∃ e ∈ l, cmp e x = .eq) ∨ cmp fs x = .eq := by
  constructor
  · rintro ⟨a, ha, hax⟩
    rcases h.mem ha with rfl | ha
    · exact .inr hax
    · exact .inl ⟨a, ha, hax⟩
  · intro hor
    by_cases hx : cmp fs x = .eq
    · cases changed with
      | false =>
          cases h with
          | kept he heq => exact ⟨_, he, TransCmp.eq_trans heq hx⟩
      | true => exact ⟨fs, h.mem_self, hx⟩
    · obtain ⟨a, ha, hax⟩ := hor.resolve_right hx
      have hne : cmp a fs ≠ .eq := by
        intro heq
        exact hx (TransCmp.eq_trans (OrientedCmp.eq_symm heq) hax)
      exact ⟨a, (h.mem_iff_of_ne hne).mpr ha, hax⟩

/-- Where equal structures are the same one, none makes room for another. -/
theorem mem_iff (h : Insertion cmp fs l changed l')
    (hcmp : ∀ e ∈ l, cmp e fs = .eq ↔ e = fs) {a : FeatureStructure} :
    a ∈ l' ↔ a = fs ∨ a ∈ l := by
  cases h with
  | kept he heq =>
      rw [(hcmp _ he).mp heq] at he
      exact ⟨.inr, fun ha => ha.elim (fun h => h ▸ he) id⟩
  | replaced he heq hne =>
      -- no structure is replaced by one of its own id
      have hsame := (hcmp _ (List.mem_of_getElem? he)).mp heq
      rw [hsame, fs.same_self] at hne
      cases hne
  | added => exact List.mem_insertIdx List.countP_le_length

/-- Where equal structures are the same one, exactly a new one counts as a change. -/
theorem changed_eq (h : Insertion cmp fs l changed l') (hcmp : ∀ e ∈ l, cmp e fs = .eq ↔ e = fs) :
    changed = decide (fs ∉ l) := by
  cases h with
  | kept he heq => rw [(hcmp _ he).mp heq] at he; simpa using he
  | replaced he heq hne =>
      have hsame := (hcmp _ (List.mem_of_getElem? he)).mp heq
      rw [hsame, fs.same_self] at hne
      cases hne
  | added hnone =>
      rw [eq_comm, decide_eq_true_eq]
      exact fun hfs => hnone fs hfs ((hcmp fs hfs).mpr rfl)

end Insertion

namespace Removal

theorem ascending (h : Removal cmp fs l changed l') (hl : Ascending cmp l) : Ascending cmp l' := by
  cases h with
  | removed => exact hl.eraseIdx _
  | absent => exact hl

theorem mem (h : Removal cmp fs l changed l') {a : FeatureStructure} (ha : a ∈ l') : a ∈ l := by
  cases h with
  | removed => exact List.mem_of_mem_eraseIdx ha
  | absent => exact ha

/-- What compares equal and has the id is taken out, and nothing else. -/
theorem mem_iff [TransCmp cmp] (h : Removal cmp fs l changed l') (hl : Ascending cmp l)
    {a : FeatureStructure} : a ∈ l' ↔ a ∈ l ∧ ¬ (cmp a fs = .eq ∧ a.same fs = true) := by
  cases h with
  | @removed i e he heq hsame =>
      obtain ⟨hi, rfl⟩ := List.getElem?_eq_some_iff.mp he
      rw [← hl.nodup.erase_getElem _ hi, hl.nodup.mem_erase_iff, and_comm]
      refine and_congr_right fun ha => not_congr ⟨?_, fun hmatch => ?_⟩
      · rintro rfl
        exact ⟨heq, hsame⟩
      · exact hl.eq_of_compare ha (List.getElem_mem hi)
          (TransCmp.eq_trans hmatch.1 (OrientedCmp.eq_symm heq))
  | absent hnone =>
      refine ⟨fun ha => ⟨ha, ?_⟩, And.left⟩
      rintro ⟨heq, hsame⟩
      rw [hnone a ha heq] at hsame
      cases hsame

theorem changed_eq (h : Removal cmp fs l changed l') (hcmp : ∀ e ∈ l, cmp e fs = .eq ↔ e = fs) :
    changed = decide (fs ∈ l) := by
  cases h with
  | removed he heq =>
      have hmem := List.mem_of_getElem? he
      rw [(hcmp _ hmem).mp heq] at hmem
      simpa using hmem
  | absent hnone =>
      rw [eq_comm, decide_eq_false_iff_not]
      intro hfs
      have hself := hnone fs hfs ((hcmp fs hfs).mpr rfl)
      rw [fs.same_self] at hself
      cases hself

end Removal

/-- The order that a regime keeps by a comparator. -/
def Regime.order (c : Comparator) : Regime → FeatureStructure → FeatureStructure → Ordering
  | .sorted => c.compareFully
  | .onePerKey _ => c.compare

namespace OrderedSet

variable {s : OrderedSet}

instance (s : OrderedSet) : TransCmp s.order :=
  match h : s.regime with
  | .sorted => by
      have : s.order = s.comparator.compareFully := by funext a b; simp only [order, h]
      exact this ▸ inferInstance
  | .onePerKey _ => by
      have : s.order = s.comparator.compare := by funext a b; simp only [order, h]
      exact this ▸ inferInstance

/-- The elements ascend in the order of the regime. -/
def Sound (s : OrderedSet) : Prop := Ascending s.order s.elements

/-! ### The check -/

theorem firstDescent?_eq_none {i : Nat} [TransCmp cmp] :
    firstDescent? cmp i l = none ↔ Ascending cmp l := by
  induction l generalizing i with
  | nil => simp [firstDescent?, Ascending]
  | cons a l ih =>
      cases l with
      | nil => simp [firstDescent?, Ascending]
      | cons b rest =>
          rw [firstDescent?]
          split
          next hab =>
            rw [ih]
            refine ⟨fun h => List.pairwise_cons.mpr ⟨?_, h⟩, fun h => (List.pairwise_cons.mp h).2⟩
            intro c hc
            rcases List.mem_cons.mp hc with rfl | hc
            · exact hab
            · exact TransCmp.lt_trans hab ((List.pairwise_cons.mp h).1 c hc)
          next hab =>
            constructor
            · intro h
              cases h
            · intro h
              exact absurd ((List.pairwise_cons.mp h).1 b List.mem_cons_self) hab

/-- **The check passes on exactly the sound sets.** -/
theorem check_eq_ok : s.check = .ok () ↔ s.Sound := by
  rw [Sound, ← firstDescent?_eq_none (i := 0), check]
  split
  next h => simp [h]
  next h => simp [h]

/-! ### Looking up -/

theorem place_eq (h : s.Sound) (fs : FeatureStructure) :
    s.place fs = s.elements.countP fun e => s.order e fs == .lt :=
  Bisection.splitPoint_eq_countP ((lower_lt fs).cuts h) _

/-- The occupant of a place is the element that compares equal. -/
theorem occupant?_eq_some (h : s.Sound) {i : Nat} {e : FeatureStructure} :
    s.occupant? fs = some (i, e) ↔ s.elements[i]? = some e ∧ s.order e fs = .eq := by
  rw [occupant?, place_eq h, get?]
  constructor
  · intro hocc
    split at hocc
    next e' he =>
      split at hocc
      next heq =>
        cases hocc
        exact ⟨he, heq⟩
      next => cases hocc
    next => cases hocc
  · rintro ⟨he, heq⟩
    obtain ⟨hi, rfl⟩ := List.getElem?_eq_some_iff.mp he
    -- what is below the occupant is below the structure, so it is found at its place
    have hcount : s.elements.countP (fun x => s.order x fs == .lt) = i := by
      rw [← h.countP_lt_getElem hi]
      exact List.countP_congr fun x _ => by rw [TransCmp.congr_right heq]
    simp only [hcount, he, heq, ↓reduceIte]

theorem occupant?_eq_none (h : s.Sound) :
    s.occupant? fs = none ↔ ∀ e ∈ s.elements, s.order e fs ≠ .eq := by
  constructor
  · intro hnone e he heq
    obtain ⟨i, hi, rfl⟩ := List.getElem_of_mem he
    have hsome := (occupant?_eq_some h).mpr ⟨List.getElem?_eq_getElem hi, heq⟩
    rw [hnone] at hsome
    cases hsome
  · intro hnone
    cases hocc : s.occupant? fs with
    | none => rfl
    | some p =>
        obtain ⟨he, heq⟩ := (occupant?_eq_some h).mp hocc
        exact absurd heq (hnone _ (List.mem_of_getElem? he))

theorem find?_eq_some (h : s.Sound) {i : Nat} :
    s.find? fs = some i ↔ ∃ e, s.elements[i]? = some e ∧ s.order e fs = .eq ∧ e.same fs = true := by
  unfold find?
  constructor
  · intro hfind
    split at hfind
    next j e hocc =>
      split at hfind
      next hsame =>
        cases hfind
        obtain ⟨he, heq⟩ := (occupant?_eq_some h).mp hocc
        exact ⟨e, he, heq, hsame⟩
      next => cases hfind
    next => cases hfind
  · rintro ⟨e, he, heq, hsame⟩
    rw [(occupant?_eq_some h).mpr ⟨he, heq⟩]
    simp only [hsame, ↓reduceIte]

theorem contains_iff (h : s.Sound) :
    s.contains fs = true ↔ ∃ e ∈ s.elements, s.order e fs = .eq ∧ e.same fs = true := by
  rw [contains, Option.isSome_iff_exists]
  constructor
  · rintro ⟨i, hi⟩
    obtain ⟨e, he, heq, hsame⟩ := (find?_eq_some h).mp hi
    exact ⟨e, List.mem_of_getElem? he, heq, hsame⟩
  · rintro ⟨e, he, heq, hsame⟩
    obtain ⟨i, hi, rfl⟩ := List.getElem_of_mem he
    exact ⟨i, (find?_eq_some h).mpr ⟨_, List.getElem?_eq_getElem hi, heq, hsame⟩⟩

/-! ### What changes keep -/

/-- Two sets of one comparator and regime. -/
def Alike (s t : OrderedSet) : Prop := s.comparator = t.comparator ∧ s.regime = t.regime

theorem Alike.order {s t : OrderedSet} (h : s.Alike t) : s.order = t.order := by
  funext a b
  simp only [OrderedSet.order, h.1, h.2]

theorem alike_writable (s : OrderedSet) (shared : Bool) : (s.writable shared).Alike s := by
  cases shared <;> exact ⟨rfl, rfl⟩

theorem alike_clear (s : OrderedSet) (shared : Bool) : (s.clear shared).Alike s := by
  cases shared <;> exact ⟨rfl, rfl⟩

@[simp] theorem elements_writable (s : OrderedSet) (shared : Bool) :
    (s.writable shared).elements = s.elements := by
  cases shared <;> rfl

@[simp] theorem generation_writable (s : OrderedSet) (shared : Bool) :
    (s.writable shared).generation = s.generation := by
  cases shared <;> rfl

@[simp] theorem elements_clear (s : OrderedSet) (shared : Bool) :
    (s.clear shared).elements = [] := by
  cases shared <;> rfl

@[simp] theorem generation_clear (s : OrderedSet) (shared : Bool) :
    (s.clear shared).generation = s.generation + 1 := by
  cases shared <;> rfl

theorem sound_empty (comparator : Comparator) (regime : Regime) (owner capacity : Nat) :
    (empty comparator regime owner capacity).Sound :=
  List.Pairwise.nil

theorem sound_clear (s : OrderedSet) (shared : Bool) : (s.clear shared).Sound := by
  rw [Sound, elements_clear]
  exact List.Pairwise.nil

/-! ### Insertion and removal -/

/-- The set that a change leaves behind: the very same one, or one of the next generation. -/
structure Successor (s : OrderedSet) (changed : Bool) (t : OrderedSet) : Prop where
  alike : t.Alike s
  same : changed = false → t = s
  newer : changed = true → t.generation = s.generation + 1

theorem successor_refl (s : OrderedSet) : s.Successor false s :=
  ⟨⟨rfl, rfl⟩, fun _ => rfl, nofun⟩

/-- A change writes to the set once it has an array of its own. -/
theorem Successor.of_writable {t : OrderedSet} {shared : Bool} (ht : t.Alike (s.writable shared))
    (hgeneration : t.generation = (s.writable shared).generation + 1) : s.Successor true t := by
  have hs := alike_writable s shared
  refine ⟨⟨ht.1.trans hs.1, ht.2.trans hs.2⟩, nofun, fun _ => ?_⟩
  rw [hgeneration, generation_writable]

/-- What goes in at its place leaves a sound set behind, so that the check passes. -/
theorem sound_insertAt (h : s.Sound) (shared : Bool)
    (hnone : ∀ e ∈ s.elements, s.order e fs ≠ .eq) :
    ((s.writable shared).insertAt (s.place fs) fs).Sound := by
  have hw : ((s.writable shared).insertAt (s.place fs) fs).Alike s := alike_writable s shared
  rw [Sound, hw.order]
  show Ascending s.order ((s.writable shared).elements.insertIdx (s.place fs) fs)
  rw [elements_writable, place_eq h]
  exact Ascending.insertIdx h hnone

/-- Where no element is equal, a structure goes in at its place. -/
theorem insert_vacant (h : s.Sound) (shared : Bool)
    (hnone : ∀ e ∈ s.elements, s.order e fs ≠ .eq) :
    s.insert shared fs = (.ok true, (s.writable shared).insertAt (s.place fs) fs) := by
  simp only [insert, (occupant?_eq_none h).mpr hnone,
    check_eq_ok.mpr (sound_insertAt h shared hnone)]
  rfl

/-- **An insertion never fails.** -/
theorem insert_spec (h : s.Sound) (shared : Bool) (fs : FeatureStructure) :
    ∃ changed t, s.insert shared fs = (.ok changed, t) ∧ s.Successor changed t ∧
      Insertion s.order fs s.elements changed t.elements := by
  cases hocc : s.occupant? fs with
  | none =>
      -- the place is free
      have hnone := (occupant?_eq_none h).mp hocc
      refine ⟨true, _, insert_vacant h shared hnone, Successor.of_writable ⟨rfl, rfl⟩ rfl, ?_⟩
      show Insertion s.order fs s.elements true
        ((s.writable shared).elements.insertIdx (s.place fs) fs)
      rw [elements_writable, place_eq h]
      exact .added hnone
  | some p =>
      -- the place is taken, and the regime decides who keeps it
      obtain ⟨i, e⟩ := p
      obtain ⟨he, heq⟩ := (occupant?_eq_some h).mp hocc
      have hkept : Insertion s.order fs s.elements false s.elements :=
        .kept (List.mem_of_getElem? he) heq
      simp only [insert, hocc]
      split
      · split
        · exact ⟨false, s, rfl, successor_refl s, hkept⟩
        next hne =>
          refine ⟨true, _, rfl, Successor.of_writable ⟨rfl, rfl⟩ rfl, ?_⟩
          show Insertion s.order fs s.elements true ((s.writable shared).elements.set i fs)
          rw [elements_writable]
          exact .replaced he heq (Bool.eq_false_iff.mpr hne)
      · exact ⟨false, s, rfl, successor_refl s, hkept⟩

theorem erase_spec (h : s.Sound) (shared : Bool) (fs : FeatureStructure) :
    ∃ changed t, s.erase shared fs = (changed, t) ∧ s.Successor changed t ∧
      Removal s.order fs s.elements changed t.elements := by
  unfold erase
  split
  next i hfind =>
    obtain ⟨e, he, heq, hsame⟩ := (find?_eq_some h).mp hfind
    refine ⟨true, _, rfl, Successor.of_writable ⟨rfl, rfl⟩ rfl, ?_⟩
    show Removal s.order fs s.elements true ((s.writable shared).elements.eraseIdx i)
    rw [elements_writable]
    exact .removed he heq hsame
  next hfind =>
    refine ⟨false, s, rfl, successor_refl s, .absent fun e he heq => ?_⟩
    rw [Bool.eq_false_iff]
    intro hsame
    obtain ⟨i, hi, rfl⟩ := List.getElem_of_mem he
    rw [(find?_eq_some h).mpr ⟨_, List.getElem?_eq_getElem hi, heq, hsame⟩] at hfind
    cases hfind

/-- Where an insertion changed nothing, it left the very same set. -/
theorem insert_unchanged (h : s.Sound) {shared : Bool}
    (hfalse : (s.insert shared fs).1 = .ok false) : (s.insert shared fs).2 = s := by
  obtain ⟨changed, t, hok, hnext, -⟩ := insert_spec h shared fs
  rw [hok] at hfalse ⊢
  cases hfalse
  exact hnext.same rfl

theorem erase_unchanged (h : s.Sound) {shared : Bool} (hfalse : (s.erase shared fs).1 = false) :
    (s.erase shared fs).2 = s := by
  obtain ⟨changed, t, hok, hnext, -⟩ := erase_spec h shared fs
  rw [hok] at hfalse ⊢
  exact hnext.same hfalse

theorem Successor.sound {changed : Bool} {t : OrderedSet} (h : s.Successor changed t)
    (ht : Ascending s.order t.elements) : t.Sound := by
  rw [Sound, h.alike.order]
  exact ht

/-- A set made of ascending elements is sound, and its making does not fail. -/
theorem ofAscending_spec {comparator : Comparator} (owner : Nat) (generation : UInt64)
    (h : Ascending comparator.compareFully l) :
    ∃ t, ofAscending comparator .sorted owner l generation = .ok t ∧ t.comparator = comparator ∧
      t.regime = .sorted ∧ t.elements = l ∧ t.Sound := by
  let t : OrderedSet :=
    ⟨comparator, .sorted, owner, l, .collected l.length, ⟨owner, generation⟩, generation, 0⟩
  have hsound : t.Sound := h
  refine ⟨t, ?_, rfl, rfl, rfl, hsound⟩
  show (do t.check; return t) = Except.ok t
  rw [check_eq_ok.mpr hsound]
  rfl

/-! ### Histories -/

/-- A change of a set. `shared` tells whether a snapshot holds the array when the change comes. -/
inductive Change where
  | insert (shared : Bool) (fs : FeatureStructure)
  | erase (shared : Bool) (fs : FeatureStructure)
  | clear (shared : Bool)

/-- The set after one change. -/
def apply (s : OrderedSet) : Change → OrderedSet
  | .insert shared fs => (s.insert shared fs).2
  | .erase shared fs => (s.erase shared fs).2
  | .clear shared => s.clear shared

/-- The set after some changes. -/
def after (s : OrderedSet) (changes : List Change) : OrderedSet := changes.foldl apply s

/-- One change keeps a set sound, and keeps its comparator and regime. -/
theorem sound_apply (h : s.Sound) (change : Change) :
    (s.apply change).Sound ∧ (s.apply change).Alike s := by
  cases change with
  | insert shared fs =>
      obtain ⟨changed, t, hok, hnext, hins⟩ := insert_spec h shared fs
      rw [apply, hok]
      exact ⟨hnext.sound (hins.ascending h), hnext.alike⟩
  | erase shared fs =>
      obtain ⟨changed, t, hok, hnext, hrem⟩ := erase_spec h shared fs
      rw [apply, hok]
      exact ⟨hnext.sound (hrem.ascending h), hnext.alike⟩
  | clear shared => exact ⟨s.sound_clear shared, s.alike_clear shared⟩

theorem sound_after (h : s.Sound) (changes : List Change) :
    (s.after changes).Sound ∧ (s.after changes).Alike s := by
  induction changes generalizing s with
  | nil => exact ⟨h, rfl, rfl⟩
  | cons change rest ih =>
      obtain ⟨hsound, halike⟩ := sound_apply h change
      obtain ⟨hsound', halike'⟩ := ih hsound
      exact ⟨hsound', halike'.1.trans halike.1, halike'.2.trans halike.2⟩

theorem order_eq (s : OrderedSet) : s.order = s.regime.order s.comparator := by
  funext a b
  unfold order
  split <;> simp only [Regime.order, *]

/-- A set that an order holds together: its elements ascend, the check passes, also at the end of
any further insertion, and a look-up by bisection finds an element that compares equal exactly when
there is one, at the place where it stands. -/
structure InOrder (s : OrderedSet) (cmp : FeatureStructure → FeatureStructure → Ordering) :
    Prop where
  ascending : Ascending cmp s.elements
  checked : s.check = .ok ()
  inserts : ∀ shared fs, ∃ changed, (s.insert shared fs).1 = .ok changed
  found : ∀ fs i e, s.occupant? fs = some (i, e) ↔ s.elements[i]? = some e ∧ cmp e fs = .eq
  missed : ∀ fs, s.occupant? fs = none ↔ ∀ e ∈ s.elements, cmp e fs ≠ .eq

/-- **Whatever the history of a set, it is in the order of its regime.** -/
theorem inOrder_after (c : Comparator) (regime : Regime) (owner capacity : Nat)
    (changes : List Change) :
    ((empty c regime owner capacity).after changes).InOrder (regime.order c) := by
  obtain ⟨hsound, halike⟩ := sound_after (sound_empty c regime owner capacity) changes
  have horder : regime.order c = ((empty c regime owner capacity).after changes).order := by
    rw [halike.order, order_eq]
    rfl
  rw [horder]
  refine ⟨hsound, check_eq_ok.mpr hsound, ?_, ?_, ?_⟩
  · intro shared fs
    obtain ⟨changed, t, hok, -⟩ := insert_spec hsound shared fs
    exact ⟨changed, by rw [hok]⟩
  · exact fun fs i e => occupant?_eq_some hsound
  · exact fun fs => occupant?_eq_none hsound

end OrderedSet
end FeatureIndex
