import FeatureIndex.Cursor.Leaf
import FeatureIndex.Proofs.Ascending

/-!
# List cursors

A `ListCursor` is what every cursor of this library comes down to: a plain list, and a position in
it or none. `Walk.Follows` says of a walk that its states behave as list cursors do, whatever they
are made of: they are valid where the list cursor is, stand at the same element, and stay in step
with it under every move.

In an ascending list a position can be told by a condition that cuts the list: `after` stands at the
first element that does not meet it, and `before` at the last one that does. A cursor over one
snapshot is a list cursor as it stands.
-/

namespace FeatureIndex

/-- The step by one element on a side. -/
def Step.ahead (forward : Bool) : Step := if forward then .next else .previous

/-- A list, and a position in it or none. -/
structure ListCursor where
  items : List FeatureStructure
  position : Option Nat

namespace ListCursor

/-- Stand at position `i`, or nowhere when there is no such position. -/
def seek (c : ListCursor) (i : Nat) : ListCursor :=
  { c with position := if i < c.items.length then some i else none }

/-- Stand just before position `i`. -/
def seekBack (c : ListCursor) (i : Nat) : ListCursor :=
  { c with position := if i = 0 then none else some (i - 1) }

/-- Move by one element. A move past either end leads nowhere, and from there only the first and the
last element can be reached. -/
def step : Step → ListCursor → ListCursor
  | .first, c => c.seek 0
  | .last, c => c.seekBack c.items.length
  | .next, c =>
    match c.position with
    | some p => c.seek (p + 1)
    | none => c
  | .previous, c =>
    match c.position with
    | some p => c.seekBack p
    | none => c

/-- Whether the cursor stands at an element. -/
def isValid (c : ListCursor) : Bool := c.position.isSome

/-- The element that the cursor stands at. -/
def element? (c : ListCursor) : Option FeatureStructure := c.position.bind fun p => c.items[p]?

/-- The element that the cursor stands at. -/
def get (c : ListCursor) : Except Error FeatureStructure :=
  match c.element? with
  | some fs => .ok fs
  | none => .error .invalidIterator

theorem get_eq_ok_iff {c : ListCursor} {fs : FeatureStructure} :
    c.get = .ok fs ↔ c.element? = some fs := by
  rw [get]
  cases c.element? <;> simp

/-- The elements from where the cursor stands on. -/
def remaining (c : ListCursor) : List FeatureStructure :=
  match c.position with
  | some p => c.items.drop p
  | none => []

/-- The position, where there is one, is one of the list. -/
def InRange (c : ListCursor) : Prop := ∀ p, c.position = some p → p < c.items.length

variable {c : ListCursor}

@[simp] theorem items_seek (c : ListCursor) (i : Nat) : (c.seek i).items = c.items := rfl

@[simp] theorem items_seekBack (c : ListCursor) (i : Nat) : (c.seekBack i).items = c.items := rfl

@[simp] theorem items_step (s : Step) (c : ListCursor) : (c.step s).items = c.items := by
  cases s with
  | first => exact items_seek c 0
  | last => exact items_seekBack c _
  | next =>
      rw [step]
      split
      · exact items_seek c _
      · rfl
  | previous =>
      rw [step]
      split
      · exact items_seekBack c _
      · rfl

theorem step_next_of_position {p : Nat} (h : c.position = some p) :
    c.step .next = seek ⟨c.items, none⟩ (p + 1) := by
  rw [step, h]
  rfl

theorem step_previous_of_position {p : Nat} (h : c.position = some p) :
    c.step .previous = seekBack ⟨c.items, none⟩ p := by
  rw [step, h]
  rfl

theorem step_ahead_none (forward : Bool) (h : c.position = none) :
    c.step (.ahead forward) = c := by
  cases forward <;> simp [Step.ahead, step, h]

theorem inRange_seek (c : ListCursor) (i : Nat) : (c.seek i).InRange := by
  intro p hp
  simp only [seek] at hp
  split at hp
  next h => cases hp; exact h
  next => cases hp

theorem inRange_seekBack {i : Nat} (hi : i ≤ c.items.length) : (c.seekBack i).InRange := by
  intro p hp
  simp only [seekBack] at hp
  split at hp
  next => cases hp
  next h =>
    cases hp
    show i - 1 < c.items.length
    omega

theorem InRange.step (h : c.InRange) (s : Step) : (c.step s).InRange := by
  cases s with
  | first => exact c.inRange_seek 0
  | last => exact inRange_seekBack (Nat.le_refl _)
  | next =>
      rw [ListCursor.step]
      split
      · exact c.inRange_seek _
      · exact h
  | previous =>
      rw [ListCursor.step]
      split
      next p hp => exact inRange_seekBack (Nat.le_of_lt (h p hp))
      next => exact h

theorem InRange.isValid_eq (h : c.InRange) : c.isValid = c.element?.isSome := by
  rw [isValid, element?]
  cases hp : c.position with
  | none => rfl
  | some p => simp [h p hp]

theorem element?_eq_head? (c : ListCursor) : c.element? = c.remaining.head? := by
  rw [element?, remaining]
  cases c.position with
  | none => rfl
  | some p => exact List.head?_drop.symm

theorem remaining_seek (l : List FeatureStructure) (i : Nat) :
    (seek ⟨l, none⟩ i).remaining = l.drop i := by
  rw [seek, remaining]
  by_cases hi : i < l.length
  · simp only [hi, ↓reduceIte]
  · simp only [hi, ↓reduceIte, List.drop_eq_nil_of_le (Nat.le_of_not_lt hi)]

theorem element?_seek (l : List FeatureStructure) (i : Nat) :
    (seek ⟨l, none⟩ i).element? = l[i]? := by
  rw [element?_eq_head?, remaining_seek, List.head?_drop]

theorem remaining_step_first (c : ListCursor) : (c.step .first).remaining = c.items :=
  remaining_seek c.items 0

theorem remaining_step_next (c : ListCursor) : (c.step .next).remaining = c.remaining.tail := by
  obtain ⟨items, position⟩ := c
  cases position with
  | none => rfl
  | some p => exact (remaining_seek items (p + 1)).trans List.tail_drop.symm

theorem length_remaining_le (c : ListCursor) : c.remaining.length ≤ c.items.length := by
  rw [remaining]
  split
  · rw [List.length_drop]
    omega
  · exact Nat.zero_le _

/-- A move to an end leads nowhere only where there are no elements. -/
theorem items_eq_nil {m : Step} (hm : m = .first ∨ m = .last) (h : ¬ (c.step m).isValid = true) :
    c.items = [] := by
  rw [isValid, Bool.not_eq_true, Option.isSome_eq_false_iff, Option.isNone_iff_eq_none] at h
  rw [← List.length_eq_zero_iff]
  rcases hm with rfl | rfl
  · simp only [step, seek] at h
    split at h
    · cases h
    · omega
  · simp only [step, seekBack] at h
    split at h
    · assumption
    · cases h

theorem length_pos_of_isValid {m : Step} (hm : m = .first ∨ m = .last)
    (h : (c.step m).isValid = true) : 0 < c.items.length := by
  rw [List.length_pos_iff]
  intro hnil
  obtain ⟨items, position⟩ := c
  obtain rfl : items = [] := hnil
  rcases hm with rfl | rfl <;> cases h

/-- Going back from the last element visits the list in reverse. -/
theorem iterate_previous (l : List FeatureStructure) (k : Nat) :
    (step .previous)^[k] (step .last ⟨l, none⟩) =
      ⟨l, if k < l.length then some (l.length - 1 - k) else none⟩ := by
  induction k with
  | zero =>
      rw [Function.iterate_zero_apply, step, seekBack]
      rcases Nat.eq_zero_or_pos l.length with h | h
      · simp [h]
      · simp [h, Nat.ne_of_gt h]
  | succ k ih =>
      rw [Function.iterate_succ_apply', ih]
      -- once the cursor has left the list, it stays outside
      by_cases hk : k < l.length
      · simp only [step, hk, ↓reduceIte, seekBack, ListCursor.mk.injEq, true_and]
        by_cases hk' : k + 1 < l.length
        · rw [if_neg (by omega), if_pos hk']
          rfl
        · rw [if_pos (by omega), if_neg hk']
      · rw [if_neg hk, if_neg (by omega)]
        rfl

theorem get_iterate_previous (l : List FeatureStructure) (k : Nat) :
    ((step .previous)^[k] (step .last ⟨l, none⟩)).get =
      match l.reverse[k]? with
      | some fs => .ok fs
      | none => .error .invalidIterator := by
  rw [iterate_previous, get, element?]
  by_cases hk : k < l.length
  · rw [if_pos hk, List.getElem?_reverse hk]
    rfl
  · have hnone : l.reverse[k]? = none := List.getElem?_eq_none (by rw [List.length_reverse]; omega)
    rw [if_neg hk, hnone]
    rfl

theorem iterate_next {l : List FeatureStructure} {p k : Nat} (h : p + k < l.length) :
    (step .next)^[k] ⟨l, some p⟩ = ⟨l, some (p + k)⟩ := by
  induction k generalizing p with
  | zero => rfl
  | succ k ih =>
      have hstep : step .next ⟨l, some p⟩ = ⟨l, some (p + 1)⟩ := by
        rw [step_next_of_position rfl, seek, if_pos (show p + 1 < l.length by omega)]
      rw [Function.iterate_succ_apply, hstep, ih (by omega)]
      congr 2
      omega

theorem iterate_previous_add (l : List FeatureStructure) (p k : Nat) :
    (step .previous)^[k] ⟨l, some (p + k)⟩ = ⟨l, some p⟩ := by
  induction k with
  | zero => rfl
  | succ k ih => exact ih

/-- **From any element all others are reached**, on one side or on the other. -/
theorem exists_iterate_get {c : ListCursor} (hrange : c.InRange) (hv : c.isValid = true)
    {fs : FeatureStructure} (hfs : fs ∈ c.items) :
    ∃ m k, (m = .next ∨ m = .previous) ∧ ((step m)^[k] c).get = .ok fs := by
  obtain ⟨items, position⟩ := c
  obtain ⟨p, rfl⟩ := Option.isSome_iff_exists.mp hv
  obtain ⟨q, hq⟩ := List.getElem?_of_mem hfs
  have hlt : q < items.length := (List.getElem?_eq_some_iff.mp hq).1
  rcases Nat.le_total p q with hle | hle
  · obtain ⟨k, rfl⟩ := Nat.exists_eq_add_of_le hle
    refine ⟨.next, k, .inl rfl, ?_⟩
    rw [iterate_next hlt, get_eq_ok_iff]
    exact hq
  · obtain ⟨k, rfl⟩ := Nat.exists_eq_add_of_le hle
    refine ⟨.previous, k, .inr rfl, ?_⟩
    rw [iterate_previous_add, get_eq_ok_iff]
    exact hq

/-! ### Positions by conditions -/

/-- At the first element that does not meet a condition. -/
def after (items : List FeatureStructure) (below : FeatureStructure → Bool) : ListCursor :=
  seek ⟨items, none⟩ (items.countP below)

/-- At the last element that meets a condition. -/
def before (items : List FeatureStructure) (below : FeatureStructure → Bool) : ListCursor :=
  seekBack ⟨items, none⟩ (items.countP below)

theorem step_first (c : ListCursor) : c.step .first = after c.items fun _ => false := by
  rw [after, List.countP_false]
  rfl

theorem step_last (c : ListCursor) : c.step .last = before c.items fun _ => true := by
  rw [before, List.countP_true]
  rfl

section Ascending

variable {cmp : FeatureStructure → FeatureStructure → Ordering} [Std.TransCmp cmp]
  {l : List FeatureStructure} {below : FeatureStructure → Bool} {x : FeatureStructure} {p : Nat}

theorem after_lt (hl : Ascending cmp l) (hx : l[p]? = some x) :
    after l (fun e => cmp e x == .lt) = ⟨l, some p⟩ := by
  obtain ⟨hp, rfl⟩ := List.getElem?_eq_some_iff.mp hx
  rw [after, hl.countP_lt_getElem hp, seek, if_pos hp]

theorem before_ne_gt (hl : Ascending cmp l) (hx : l[p]? = some x) :
    before l (fun e => cmp e x != .gt) = ⟨l, some p⟩ := by
  obtain ⟨hp, rfl⟩ := List.getElem?_eq_some_iff.mp hx
  rw [before, hl.countP_ne_gt_getElem hp]
  rfl

theorem step_next_eq (hl : Ascending cmp l) (hx : l[p]? = some x) :
    step .next ⟨l, some p⟩ = after l fun e => cmp e x != .gt := by
  obtain ⟨hp, rfl⟩ := List.getElem?_eq_some_iff.mp hx
  rw [after, hl.countP_ne_gt_getElem hp]
  rfl

theorem step_previous_eq (hl : Ascending cmp l) (hx : l[p]? = some x) :
    step .previous ⟨l, some p⟩ = before l fun e => cmp e x == .lt := by
  obtain ⟨hp, rfl⟩ := List.getElem?_eq_some_iff.mp hx
  rw [before, hl.countP_lt_getElem hp]
  rfl

omit [Std.TransCmp cmp] in
theorem element?_after (l : List FeatureStructure) (below : FeatureStructure → Bool) :
    (after l below).element? = l[l.countP below]? :=
  element?_seek l _

omit [Std.TransCmp cmp] in
theorem remaining_after (h : Cuts below l) : (after l below).remaining = l.dropWhile below := by
  rw [after, remaining_seek, drop_countP h]

omit [Std.TransCmp cmp] in
theorem element?_before (l : List FeatureStructure) (below : FeatureStructure → Bool) :
    (before l below).element? =
      if l.countP below = 0 then none else l[l.countP below - 1]? := by
  rw [before, seekBack, element?]
  split <;> rfl

/-- The condition of a position holds of exactly what is before the element there. -/
theorem below_eq_of_after (hl : Ascending cmp l) (hbelow : Cuts below l)
    (hx : (after l below).element? = some x) : ∀ e ∈ l, below e = (cmp e x == .lt) := by
  intro e he
  rw [element?_after] at hx
  obtain ⟨hk, rfl⟩ := List.getElem?_eq_some_iff.mp hx
  obtain ⟨i, hi, rfl⟩ := List.getElem_of_mem he
  rw [Bool.eq_iff_iff, getElem_iff_lt_countP hbelow hi, beq_iff_eq, hl.compare_getElem hi hk,
    Nat.compare_eq_lt]

/-- The condition of a position holds of exactly what is not after the element there. -/
theorem below_eq_of_before (hl : Ascending cmp l) (hbelow : Cuts below l)
    (hx : (before l below).element? = some x) : ∀ e ∈ l, below e = (cmp e x != .gt) := by
  intro e he
  rw [element?_before] at hx
  split at hx
  · cases hx
  next hpos =>
    obtain ⟨hk, rfl⟩ := List.getElem?_eq_some_iff.mp hx
    obtain ⟨i, hi, rfl⟩ := List.getElem_of_mem he
    rw [Bool.eq_iff_iff, getElem_iff_lt_countP hbelow hi, bne_iff_ne, hl.compare_getElem hi hk,
      ne_eq, Nat.compare_eq_gt]
    omega

omit [Std.TransCmp cmp] in
/-- Of two conditions that hold of the same elements, either tells the position. -/
theorem after_congr {below' : FeatureStructure → Bool} (h : ∀ e ∈ l, below e = below' e) :
    after l below = after l below' := by
  rw [after, after, List.countP_congr fun e he => by rw [h e he]]

omit [Std.TransCmp cmp] in
theorem before_congr {below' : FeatureStructure → Bool} (h : ∀ e ∈ l, below e = below' e) :
    before l below = before l below' := by
  rw [before, before, List.countP_congr fun e he => by rw [h e he]]

end Ascending

/-! ### Either side of a cut -/

/-- At the cut that a condition makes: behind it, or before it. -/
def cut (forward : Bool) (items : List FeatureStructure) (below : FeatureStructure → Bool) :
    ListCursor :=
  if forward then after items below else before items below

/-- The condition whose cut, on the given side, is at `x`. -/
def edge (cmp : FeatureStructure → FeatureStructure → Ordering) (forward : Bool)
    (x e : FeatureStructure) : Bool :=
  if forward then cmp e x == .lt else cmp e x != .gt

@[simp] theorem items_cut (forward : Bool) (l : List FeatureStructure)
    (below : FeatureStructure → Bool) : (cut forward l below).items = l := by
  cases forward <;> rfl

theorem inRange_cut (forward : Bool) (l : List FeatureStructure) (below : FeatureStructure → Bool) :
    (cut forward l below).InRange := by
  cases forward with
  | true => exact inRange_seek _ _
  | false => exact inRange_seekBack List.countP_le_length

theorem cut_congr {forward : Bool} {l : List FeatureStructure}
    {below below' : FeatureStructure → Bool} (h : ∀ e ∈ l, below e = below' e) :
    cut forward l below = cut forward l below' := by
  cases forward with
  | true => exact after_congr h
  | false => exact before_congr h

/-- A cut with an element at it is the cut of that element. -/
theorem cut_eq {cmp : FeatureStructure → FeatureStructure → Ordering} [Std.TransCmp cmp]
    {forward : Bool} {l : List FeatureStructure} {below : FeatureStructure → Bool}
    {x : FeatureStructure} (hl : Ascending cmp l) (hbelow : Cuts below l)
    (hx : (cut forward l below).element? = some x) :
    (∀ e ∈ l, below e = edge cmp forward x e) ∧
      ∃ p, cut forward l below = ⟨l, some p⟩ ∧ l[p]? = some x := by
  cases forward with
  | true =>
      have hcond := below_eq_of_after hl hbelow hx
      have hx' := (element?_after l below).symm.trans hx
      exact ⟨hcond, _, (after_congr hcond).trans (after_lt hl hx'), hx'⟩
  | false =>
      have hcond := below_eq_of_before hl hbelow hx
      have hx' := (element?_before l below).symm.trans hx
      split at hx'
      · cases hx'
      · exact ⟨hcond, _, (before_congr hcond).trans (before_ne_gt hl hx'), hx'⟩

end ListCursor

/-- Changing one place of a list changes nothing that the change keeps. -/
theorem map_modify {α β : Type} {f : α → α} {g : α → β} (h : ∀ a, g (f a) = g a) (l : List α)
    (i : Nat) : (l.modify i f).map g = l.map g := by
  induction l generalizing i with
  | nil => cases i <;> rfl
  | cons a l ih =>
      cases i with
      | zero => exact congrArg (· :: l.map g) (h a)
      | succ i => exact congrArg (g a :: ·) (ih i)

/-- Changing one place of two lists keeps to a relation that the changes keep to. -/
theorem forall₂_modify {α β : Type} {R : α → β → Prop} {l : List α} {m : List β}
    (h : List.Forall₂ R l m) {f : α → α} {g : β → β} (hfg : ∀ a b, R a b → R (f a) (g b))
    (i : Nat) : List.Forall₂ R (l.modify i f) (m.modify i g) := by
  induction h generalizing i with
  | nil => cases i <;> exact .nil
  | cons hab hrest ih =>
      cases i with
      | zero => exact .cons (hfg _ _ hab) hrest
      | succ i => exact .cons hab (ih i)

/-- Replacing one place of a list keeps to a relation that the new value keeps to. -/
theorem forall₂_set {α β : Type} {R : α → β → Prop} {l : List α} {m : List β}
    (h : List.Forall₂ R l m) {i : Nat} {a : α} {b : β} (ha : l[i]? = some a) (hab : R a b) :
    List.Forall₂ R l (m.set i b) := by
  induction h generalizing i with
  | nil => cases ha
  | cons h hrest ih =>
      cases i with
      | zero =>
          cases ha
          exact .cons hab hrest
      | succ i => exact .cons h (ih ha)

/-! ### Walks that follow a list cursor -/

namespace Walk

variable {S : Type} {w : Walk S} {R : S → ListCursor → Prop} {s : S} {c : ListCursor}

/-- The states of a walk behave as the list cursors that they stand in the relation `R` to. -/
structure Follows (w : Walk S) (R : S → ListCursor → Prop) : Prop where
  inRange {s : S} {c : ListCursor} (h : R s c) : c.InRange
  isValid {s : S} {c : ListCursor} (h : R s c) : w.isValid s = c.isValid
  element? {s : S} {c : ListCursor} (h : R s c) : w.element? s = c.element?
  step {s : S} {c : ListCursor} (h : R s c) (m : Step) : R (w.step m s) (c.step m)
  span {s : S} {c : ListCursor} (h : R s c) : c.items.length ≤ w.span s

/-- **Collecting gives the elements from where the list cursor stands on**, up to the limit. -/
theorem Follows.collect_eq (hw : w.Follows R) (h : R s c) (limit : Nat) :
    (w.collect limit s).1 = c.remaining.take limit := by
  induction limit generalizing s c with
  | zero => rfl
  | succ limit ih =>
      have hnext := ih (hw.step h .next)
      rw [c.remaining_step_next] at hnext
      rw [collect, hw.isValid h, hw.element? h, (hw.inRange h).isValid_eq, c.element?_eq_head?]
      cases hremaining : c.remaining with
      | nil => rfl
      | cons fs l =>
          rw [hremaining, List.tail_cons] at hnext
          rw [List.take_succ_cons, ← hnext]
          rfl

/-- From the first element on, collecting as much as the span gives everything. -/
theorem Follows.collect_first (hw : w.Follows R) (h : R s (c.step .first)) :
    (w.collect (w.span s) s).1 = c.items := by
  rw [hw.collect_eq h, ListCursor.remaining_step_first, List.take_of_length_le]
  have := hw.span h
  rwa [ListCursor.items_step] at this

/-- A relation between states that the steps of a walk do not leave. -/
structure Preserves (w : Walk S) (ρ : S → S → Prop) : Prop where
  refl (s : S) : ρ s s
  step {s t : S} (h : ρ s t) (m : Step) : ρ s (w.step m t)

end Walk

/-! ### Cursors over one snapshot -/

/-- The list cursor that a cursor is. -/
def Cursor.list (c : Cursor) : ListCursor := ⟨c.view.elements, c.position⟩

theorem Cursor.list_step (s : Step) (c : Cursor) : (c.step s).list = c.list.step s := by
  obtain ⟨view, position⟩ := c
  cases s <;> cases position <;> rfl

theorem Cursor.isValid_eq {c : Cursor} (h : c.list.InRange) : c.isValid = c.list.isValid := by
  rw [h.isValid_eq]
  rfl

theorem Cursor.mem_of_element? {c : Cursor} {fs : FeatureStructure} (h : c.element? = some fs) :
    fs ∈ c.view.elements := by
  obtain ⟨p, -, hp⟩ := Option.bind_eq_some_iff.mp h
  exact List.mem_of_getElem? hp

end FeatureIndex
