import FeatureIndex.Cursor.Filtered
import FeatureIndex.Proofs.ListCursor

/-!
# Filtered cursors follow the filtered list

A filtered cursor over one that follows a list cursor follows a list cursor over the accepted
elements. It stands at an accepted element, and its position is the number of accepted elements
before that one (`Filtered.Stands`).

Going on past rejected elements does not change how many accepted elements have been passed
(`Filtered.reached_step`), and ends at an accepted element or nowhere.
-/

namespace FeatureIndex.Filtered

variable {S : Type} {w : Walk S} {R : S → ListCursor → Prop} {accepts : FeatureStructure → Bool}

/-- An accepted element stands behind as many others as are accepted before it. -/
theorem getElem?_filter {l : List FeatureStructure} {p : Nat} {x : FeatureStructure}
    (hx : l[p]? = some x) (hacc : accepts x = true) :
    (l.filter accepts)[(l.take p).countP accepts]? = some x := by
  obtain ⟨hp, rfl⟩ := List.getElem?_eq_some_iff.mp hx
  have hsplit : l = l.take p ++ l[p] :: l.drop (p + 1) := by
    rw [← List.drop_eq_getElem_cons hp, List.take_append_drop]
  have hfilter : l.filter accepts =
      (l.take p).filter accepts ++ l[p] :: (l.drop (p + 1)).filter accepts := by
    conv => lhs; rw [hsplit]
    rw [List.filter_append, List.filter_cons_of_pos hacc]
  rw [hfilter, List.countP_eq_length_filter, List.getElem?_append_right (Nat.le_refl _),
    Nat.sub_self]
  rfl

/-! ### Passing elements -/

/-- How many accepted elements a cursor has before it, going forward, or not after it, going
backward. -/
def reached (accepts : FeatureStructure → Bool) (forward : Bool) (b : ListCursor) : Nat :=
  match b.position with
  | some p => (b.items.take (if forward then p else p + 1)).countP accepts
  | none => if forward then b.items.countP accepts else 0

/-- How many elements a cursor has still to pass on a side. -/
def toPass (forward : Bool) (b : ListCursor) : Nat :=
  match b.position with
  | some p => if forward then b.items.length - p else p + 1
  | none => 0

/-- Where a cursor over the accepted elements stands once so many have been passed on a side. -/
def arrived (forward : Bool) (l : List FeatureStructure) (k : Nat) : ListCursor :=
  if forward then ListCursor.seek ⟨l, none⟩ k else ListCursor.seekBack ⟨l, none⟩ k

section Passing

variable {b : ListCursor} {p : Nat} {x : FeatureStructure} {forward : Bool}

theorem countP_take_succ (accepts : FeatureStructure → Bool) (hx : b.items[p]? = some x) :
    (b.items.take (p + 1)).countP accepts =
      (b.items.take p).countP accepts + if accepts x then 1 else 0 := by
  rw [List.take_add_one, hx, List.countP_append]
  simp [List.countP_cons]

/-- Stepping ahead from an element passes it. -/
theorem reached_step (hp : b.position = some p) (hx : b.items[p]? = some x) :
    reached accepts forward (b.step (.ahead forward)) =
      (b.items.take (if forward then p + 1 else p)).countP accepts := by
  have hlt : p < b.items.length := (List.getElem?_eq_some_iff.mp hx).1
  cases forward with
  | true =>
      show reached accepts true (b.step .next) = _
      rw [ListCursor.step_next_of_position hp, ListCursor.seek]
      by_cases hp' : p + 1 < b.items.length
      · simp [reached, hp']
      · simp [reached, hp', List.take_of_length_le (show b.items.length ≤ p + 1 by omega)]
  | false =>
      show reached accepts false (b.step .previous) = _
      rw [ListCursor.step_previous_of_position hp, ListCursor.seekBack]
      cases p with
      | zero => simp [reached]
      | succ p => simp [reached]

theorem toPass_step (forward : Bool) (hp : b.position = some p) (hlt : p < b.items.length) :
    toPass forward (b.step (.ahead forward)) + 1 ≤ toPass forward b := by
  cases forward with
  | true =>
      show toPass true (b.step .next) + 1 ≤ _
      rw [ListCursor.step_next_of_position hp, ListCursor.seek]
      by_cases hp' : p + 1 < b.items.length
      · simp [toPass, hp', hp]; omega
      · simp [toPass, hp', hp]; omega
  | false =>
      show toPass false (b.step .previous) + 1 ≤ _
      rw [ListCursor.step_previous_of_position hp, ListCursor.seekBack]
      cases p with
      | zero => simp [toPass, hp]
      | succ p => simp [toPass, hp]

theorem toPass_le (h : b.InRange) (forward : Bool) : toPass forward b ≤ b.items.length := by
  unfold toPass
  split
  next p hp =>
    have := h p hp
    split <;> omega
  next => omega

end Passing

/-! ### Standing behind a condition -/

/-- A filtered cursor stands where a cursor over the accepted elements stands: nowhere, or at an
accepted element. -/
def Stands (R : S → ListCursor → Prop) (f : Filtered S) (l : ListCursor) : Prop :=
  ∃ b, R f.base b ∧ l.items = b.items.filter f.accepts ∧
    ((b.position = none ∧ l.position = none) ∨
      ∃ p x, b.position = some p ∧ b.items[p]? = some x ∧ f.accepts x = true ∧
        l.position = some ((b.items.take p).countP f.accepts))

/-- **Going on past rejected elements** ends at an accepted one or nowhere, and passes no accepted
element. -/
theorem exists_skip (hw : w.Follows R) (accepts : FeatureStructure → Bool) {forward : Bool}
    {budget : Nat} {s : S} {b : ListCursor}
    (h : R s b) (hbudget : toPass forward b ≤ budget) :
    ∃ b', R (skip w accepts (.ahead forward) budget s) b' ∧ b'.items = b.items ∧
      reached accepts forward b' = reached accepts forward b ∧
      ∀ p x, b'.position = some p → b'.items[p]? = some x → accepts x = true := by
  -- each step has one element less to pass, so the budget lasts
  induction budget generalizing s b with
  | zero =>
      have hnone : b.position = none := by
        cases hp : b.position with
        | none => rfl
        | some p =>
            have hlt := hw.inRange h p hp
            rw [toPass, hp] at hbudget
            simp only at hbudget
            split at hbudget <;> omega
      refine ⟨b, h, rfl, rfl, ?_⟩
      intro p x hp
      rw [hnone] at hp
      cases hp
  | succ budget ih =>
      rw [skip]
      split
      next hrej =>
        rw [rejected, hw.isValid h, hw.element? h, Bool.and_eq_true, Bool.not_eq_true'] at hrej
        obtain ⟨p, hp⟩ := Option.isSome_iff_exists.mp hrej.1
        have hlt := hw.inRange h p hp
        have hx : b.items[p]? = some b.items[p] := List.getElem?_eq_getElem hlt
        have hout : accepts b.items[p] = false := by
          have hany := hrej.2
          rw [ListCursor.element?, hp, Option.bind_some, hx] at hany
          exact hany
        have hpassed := toPass_step forward hp hlt
        obtain ⟨b', hR, hitems, hreached, hacc⟩ := ih (hw.step h (.ahead forward)) (by omega)
        refine ⟨b', hR, hitems.trans (b.items_step _), ?_, hacc⟩
        rw [hreached, reached_step hp hx, reached, hp]
        -- the rejected element does not count
        have hcount := countP_take_succ accepts hx
        rw [hout] at hcount
        cases forward with
        | true => exact hcount
        | false => exact hcount.symm
      next hrej =>
        refine ⟨b, h, rfl, rfl, ?_⟩
        intro p x hp hx
        rw [rejected, hw.isValid h, hw.element? h, ListCursor.isValid, hp, ListCursor.element?, hp,
          Option.bind_some, hx] at hrej
        simpa using hrej

/-- **A filtered cursor that goes on stands behind the accepted elements that were passed.** -/
theorem stands_settle (hw : w.Follows R) {f : Filtered S} {b : ListCursor} (h : R f.base b)
    (forward : Bool) :
    Stands R (f.settle w (.ahead forward))
      (arrived forward (b.items.filter f.accepts) (reached f.accepts forward b)) := by
  have hbudget := Nat.le_trans (toPass_le (hw.inRange h) forward) (hw.span h)
  obtain ⟨b', hR, hitems, hreached, hacc⟩ := exists_skip hw f.accepts h hbudget
  refine ⟨b', hR, ?_, ?_⟩
  · show _ = b'.items.filter f.accepts
    rw [hitems]
    cases forward <;> rfl
  · rw [← hreached, ← hitems]
    show (b'.position = none ∧ _) ∨ ∃ p x, b'.position = some p ∧ b'.items[p]? = some x ∧
      f.accepts x = true ∧ _ = some ((b'.items.take p).countP f.accepts)
    cases hp : b'.position with
    | none =>
        refine .inl ⟨rfl, ?_⟩
        cases forward with
        | true =>
            simp only [arrived, reached, hp, ListCursor.seek, List.countP_eq_length_filter]
            simp
        | false => simp [arrived, reached, hp, ListCursor.seekBack]
    | some p =>
        have hlt := hw.inRange hR p hp
        have hx : b'.items[p]? = some b'.items[p] := List.getElem?_eq_getElem hlt
        have haccp := hacc p _ hp hx
        refine .inr ⟨p, _, rfl, hx, haccp, ?_⟩
        have hget := List.getElem?_eq_some_iff.mp (getElem?_filter hx haccp)
        cases forward with
        | true =>
            simp only [arrived, reached, hp, ListCursor.seek, ↓reduceIte]
            exact if_pos hget.1
        | false =>
            have hcount := countP_take_succ f.accepts hx
            rw [haccp] at hcount
            simp [arrived, reached, hp, ListCursor.seekBack, hcount]

/-- Where the base stands at no rejected element, the filter stands without going on. -/
theorem stands_of_accepted (hw : w.Follows R) {f : Filtered S} {b : ListCursor} (h : R f.base b)
    (hacc : ∀ x, w.isValid f.base = true → w.element? f.base = some x → f.accepts x = true) :
    ∃ l, Stands R f l := by
  refine ⟨⟨b.items.filter f.accepts,
    b.position.map fun p => (b.items.take p).countP f.accepts⟩, b, h, rfl, ?_⟩
  cases hp : b.position with
  | none => exact .inl ⟨rfl, rfl⟩
  | some p =>
      have hlt := hw.inRange h p hp
      have hx : b.items[p]? = some b.items[p] := List.getElem?_eq_getElem hlt
      have hvalid : w.isValid f.base = true := by rw [hw.isValid h, ListCursor.isValid, hp]; rfl
      have helement : w.element? f.base = some b.items[p] := by
        rw [hw.element? h, ListCursor.element?, hp]
        exact hx
      exact .inr ⟨p, _, rfl, hx, hacc _ hvalid helement, rfl⟩

/-! ### Moving -/

section Moves

variable {f : Filtered S} {l : ListCursor}

theorem Stands.step_ahead (hw : w.Follows R) (h : Stands R f l) (forward : Bool) :
    Stands R (settle w (.ahead forward) { f with base := w.step (.ahead forward) f.base })
      (l.step (.ahead forward)) := by
  obtain ⟨b, hR, hitems, hposition⟩ := h
  have hstands := stands_settle hw
    (f := { f with base := w.step (.ahead forward) f.base }) (hw.step hR (.ahead forward)) forward
  convert hstands using 1
  rw [b.items_step, ← hitems]
  obtain ⟨items, position⟩ := l
  rcases hposition with ⟨hb, rfl⟩ | ⟨p, x, hb, hx, hacc, rfl⟩
  · -- nowhere both stay, at the end or at the start of what was passed
    rw [ListCursor.step_ahead_none forward hb, reached, hb]
    cases forward with
    | true =>
        have hlength : items.length = b.items.countP f.accepts := by
          rw [show items = b.items.filter f.accepts from hitems, List.countP_eq_length_filter]
        simp [Step.ahead, ListCursor.step, arrived, ListCursor.seek, hlength]
    | false => rfl
  · rw [reached_step hb hx]
    cases forward with
    | true =>
        have hcount := countP_take_succ f.accepts hx
        rw [hacc] at hcount
        simp only [↓reduceIte, hcount]
        rfl
    | false => rfl

/-- Behind a condition, the first and the last accepted element are reached from the ends. -/
theorem arrived_end (accepts : FeatureStructure → Bool) (b : ListCursor) {m : Step} {forward : Bool}
    (hm : (m = .first ∧ forward = true) ∨ (m = .last ∧ forward = false)) (position : Option Nat) :
    arrived forward (b.items.filter accepts) (reached accepts forward (b.step m)) =
      ListCursor.step m ⟨b.items.filter accepts, position⟩ := by
  rcases hm with ⟨rfl, rfl⟩ | ⟨rfl, rfl⟩
  · rw [ListCursor.step, ListCursor.seek, reached]
    by_cases hpos : 0 < b.items.length
    · simp only [hpos, ↓reduceIte, List.take_zero, List.countP_nil]
      rfl
    · have hnil : b.items = [] := List.length_eq_zero_iff.mp (by omega)
      simp [hnil, arrived, ListCursor.step, ListCursor.seek]
  · rw [ListCursor.step, ListCursor.seekBack, reached]
    by_cases hpos : b.items.length = 0
    · have hnil : b.items = [] := List.length_eq_zero_iff.mp hpos
      simp [hnil, arrived, ListCursor.step, ListCursor.seekBack]
    · have hlast : b.items.length - 1 + 1 = b.items.length := by omega
      simp only [hpos, ↓reduceIte, hlast, List.take_length, Bool.false_eq_true,
        List.countP_eq_length_filter]
      rfl

/-- **A move to an end leads to that end of the accepted elements**, wherever the base stood. -/
theorem stands_step_end (hw : w.Follows R) {m : Step} (hm : m = .first ∨ m = .last)
    {b : ListCursor} (h : R (w.step m f.base) (b.step m)) (position : Option Nat) :
    Stands R (f.step w m) (ListCursor.step m ⟨b.items.filter f.accepts, position⟩) := by
  rcases hm with rfl | rfl
  · have hstands := stands_settle hw (f := { f with base := w.step .first f.base }) h true
    rw [b.items_step, arrived_end _ b (.inl ⟨rfl, rfl⟩) position] at hstands
    exact hstands
  · have hstands := stands_settle hw (f := { f with base := w.step .last f.base }) h false
    rw [b.items_step, arrived_end _ b (.inr ⟨rfl, rfl⟩) position] at hstands
    exact hstands

theorem Stands.step (hw : w.Follows R) (h : Stands R f l) (m : Step) :
    Stands R (f.step w m) (l.step m) := by
  have hend : m = .first ∨ m = .last → Stands R (f.step w m) (l.step m) := by
    intro hm
    obtain ⟨b, hR, hitems, -⟩ := h
    have hstands := stands_step_end hw hm (hw.step hR m) l.position
    rwa [← hitems] at hstands
  cases m with
  | next => exact h.step_ahead hw true
  | previous => exact h.step_ahead hw false
  | first => exact hend (.inl rfl)
  | last => exact hend (.inr rfl)

theorem Stands.inRange (h : Stands R f l) : l.InRange := by
  intro q hq
  obtain ⟨b, -, hitems, ⟨-, hnone⟩ | ⟨p, x, -, hx, hacc, hp⟩⟩ := h
  · rw [hq] at hnone
    cases hnone
  · rw [hq] at hp
    cases hp
    rw [hitems]
    exact (List.getElem?_eq_some_iff.mp (getElem?_filter hx hacc)).1

theorem Stands.isValid (hw : w.Follows R) (h : Stands R f l) : w.isValid f.base = l.isValid := by
  obtain ⟨b, hR, -, ⟨hb, hl⟩ | ⟨p, x, hb, -, -, hl⟩⟩ := h
  · rw [hw.isValid hR, ListCursor.isValid, ListCursor.isValid, hb, hl]
  · rw [hw.isValid hR, ListCursor.isValid, ListCursor.isValid, hb, hl]
    rfl

theorem Stands.element? (hw : w.Follows R) (h : Stands R f l) :
    w.element? f.base = l.element? := by
  obtain ⟨b, hR, hitems, ⟨hb, hl⟩ | ⟨p, x, hb, hx, hacc, hl⟩⟩ := h
  · rw [hw.element? hR, ListCursor.element?, ListCursor.element?, hb, hl]
    rfl
  · rw [hw.element? hR, ListCursor.element?, ListCursor.element?, hb, hl, Option.bind_some,
      Option.bind_some, hitems, getElem?_filter hx hacc, hx]

end Moves

/-! ### Building and rebinding -/

section Building

variable {s : S} {b : ListCursor}

/-- A cursor put behind a condition stands behind the accepted elements before it. -/
theorem stands_ofCursor (hw : w.Follows R) (h : R s b) (accepts : FeatureStructure → Bool) :
    Stands R (ofCursor w s accepts)
      (ListCursor.seek ⟨b.items.filter accepts, none⟩ (reached accepts true b)) :=
  stands_settle hw (f := ⟨s, accepts⟩) h true

variable {f : Filtered S} {rebindBase : Rebind → S → S} {live : List FeatureStructure}

/-- **A filtered cursor that rebinds to an end stands at that end of the accepted elements.** -/
theorem stands_rebind_first (hw : w.Follows R)
    (h : R (rebindBase .first f.base) (ListCursor.step .first ⟨live, none⟩)) :
    Stands R (f.rebind w rebindBase .first)
      (ListCursor.step .first ⟨live.filter f.accepts, none⟩) := by
  have hstands := stands_settle hw (f := { f with base := rebindBase .first f.base }) h true
  rw [ListCursor.items_step, arrived_end _ _ (.inl ⟨rfl, rfl⟩) none] at hstands
  exact hstands

theorem stands_rebind_last (hw : w.Follows R)
    (h : R (rebindBase .last f.base) (ListCursor.step .last ⟨live, none⟩)) :
    Stands R (f.rebind w rebindBase .last)
      (ListCursor.step .last ⟨live.filter f.accepts, none⟩) := by
  have hstands := stands_settle hw (f := { f with base := rebindBase .last f.base }) h false
  rw [ListCursor.items_step, arrived_end _ _ (.inr ⟨rfl, rfl⟩) none] at hstands
  exact hstands

theorem exists_stands_rebind (hw : w.Follows R) (target : FeatureStructure)
    (h : R (rebindBase (.toward target) f.base) b) :
    ∃ l, Stands R (f.rebind w rebindBase (.toward target)) l :=
  ⟨_, stands_settle hw (f := { f with base := rebindBase (.toward target) f.base }) h true⟩

end Building

/-! ### What moves leave alone -/

theorem preserved_skip {ρ : S → S → Prop} (hρ : w.Preserves ρ) {s t : S} (h : ρ s t)
    (onward : Step) (budget : Nat) : ρ s (skip w accepts onward budget t) := by
  induction budget generalizing t with
  | zero => exact h
  | succ budget ih =>
      rw [skip]
      split
      · exact ih (hρ.step h onward)
      · exact h

/-- After its base has been rebound, a filtered cursor only takes steps. -/
theorem preserved_rebind {ρ : S → S → Prop} (hρ : w.Preserves ρ) (rebindBase : Rebind → S → S)
    (r : Rebind) (f : Filtered S) : ρ (rebindBase r f.base) (f.rebind w rebindBase r).base :=
  preserved_skip hρ (hρ.refl _) _ _

end FeatureIndex.Filtered
