import FeatureIndex.Cursor.Concat
import FeatureIndex.Proofs.ListCursor
import Mathlib.Data.List.Forall2

/-!
# Concatenations follow the concatenated list

A concatenation of cursors that follow list cursors follows one list cursor over all their lists
together. While it stands in cursor number `i`, only the position of that cursor counts; the others
may stand anywhere, since they are entered at an end (`Concat.standsAmong_firstFrom`,
`Concat.standsAmong_lastBefore`). So they need not follow list cursors where they are, as long as
they do once they have been entered (`Concat.Enters`).
-/

namespace FeatureIndex.Concat

variable {S : Type} {w : Walk S} {E R : S → ListCursor → Prop}

/-! ### Lists of list cursors -/

/-- The lists of some list cursors, one after another. -/
def joined (cs : List ListCursor) : List FeatureStructure := cs.flatMap ListCursor.items

/-- How many elements stand before the list of cursor number `i`. -/
def offset (cs : List ListCursor) (i : Nat) : Nat := (joined (cs.take i)).length

section Lists

variable {cs ds : List ListCursor} {d : ListCursor} {i : Nat}

@[simp] theorem joined_append (cs ds : List ListCursor) :
    joined (cs ++ ds) = joined cs ++ joined ds :=
  List.flatMap_append

theorem joined_eq_flatten (cs : List ListCursor) : joined cs = (cs.map ListCursor.items).flatten :=
  List.flatMap_def

theorem joined_congr (h : cs.map ListCursor.items = ds.map ListCursor.items) :
    joined cs = joined ds := by
  rw [joined_eq_flatten, joined_eq_flatten, h]

theorem joined_eq_nil (h : ∀ d ∈ cs, d.items = []) : joined cs = [] :=
  List.flatMap_eq_nil_iff.mpr h

theorem offset_congr (h : cs.map ListCursor.items = ds.map ListCursor.items) (i : Nat) :
    offset cs i = offset ds i := by
  have htake : (cs.take i).map ListCursor.items = (ds.take i).map ListCursor.items := by
    rw [List.map_take, List.map_take, h]
  rw [offset, offset, joined_congr htake]

theorem offset_succ (hd : cs[i]? = some d) : offset cs (i + 1) = offset cs i + d.items.length := by
  rw [offset, List.take_add_one, hd, joined_append, List.length_append]
  simp [joined, offset]

@[simp] theorem offset_length (cs : List ListCursor) :
    offset cs cs.length = (joined cs).length := by
  rw [offset, List.take_length]

theorem offset_add_drop (cs : List ListCursor) (i : Nat) :
    offset cs i + (joined (cs.drop i)).length = (joined cs).length := by
  rw [offset, ← List.length_append, ← joined_append, List.take_append_drop]

/-- The elements of cursor number `i` are found from its offset on. -/
theorem getElem?_joined (hd : cs[i]? = some d) {p : Nat} (hp : p < d.items.length) :
    (joined cs)[offset cs i + p]? = d.items[p]? := by
  have hsplit : joined cs = joined (cs.take i) ++ joined (cs.drop i) := by
    rw [← joined_append, List.take_append_drop]
  have hdrop : joined (cs.drop i) = d.items ++ joined (cs.drop (i + 1)) := by
    obtain ⟨hi, rfl⟩ := List.getElem?_eq_some_iff.mp hd
    rw [List.drop_eq_getElem_cons hi]
    rfl
  rw [hsplit, hdrop, offset, List.getElem?_append_right (Nat.le_add_right ..),
    Nat.add_sub_cancel_left, List.getElem?_append_left hp]

theorem offset_add_lt (hd : cs[i]? = some d) {p : Nat} (hp : p < d.items.length) :
    offset cs i + p < (joined cs).length := by
  have hget := (getElem?_joined hd hp).trans (List.getElem?_eq_getElem hp)
  exact (List.getElem?_eq_some_iff.mp hget).1

end Lists

/-! ### Standing in a concatenation -/

/-- A concatenation stands where a cursor over all lists together stands: nowhere, or in the list of
its current cursor. -/
def Stands (R : S → ListCursor → Prop) (c : Concat S) (l : ListCursor) : Prop :=
  ∃ cs, List.Forall₂ R c.subs cs ∧ l.items = joined cs ∧
    ((c.current = none ∧ l.position = none) ∨
      ∃ i d p, c.current = some i ∧ cs[i]? = some d ∧ d.position = some p ∧
        l.position = some (offset cs i + p))

/-- The same, where only the current cursor has to stand in the relation `R`, and the others in a
weaker one. -/
def StandsAmong (E R : S → ListCursor → Prop) (c : Concat S) (l : ListCursor) : Prop :=
  ∃ cs, List.Forall₂ E c.subs cs ∧ l.items = joined cs ∧
    ((c.current = none ∧ l.position = none) ∨
      ∃ i s d p, c.current = some i ∧ c.subs[i]? = some s ∧ cs[i]? = some d ∧ R s d ∧
        d.position = some p ∧ l.position = some (offset cs i + p))

/-- A move to an end leads from the weaker relation into the stronger one. -/
structure Enters (w : Walk S) (E R : S → ListCursor → Prop) : Prop where
  weaken {s : S} {d : ListCursor} (h : R s d) : E s d
  enter {s : S} {d : ListCursor} (h : E s d) {m : Step} (hm : m = .first ∨ m = .last) :
    R (w.step m s) (d.step m)

theorem enters_of_follows (hw : w.Follows R) : Enters w R R := ⟨id, fun h m _ => hw.step h m⟩

/-- A concatenation stands somewhere if its current cursor does. -/
theorem exists_standsAmong (hw : w.Follows R) (he : Enters w E R) {c : Concat S}
    {cs : List ListCursor} (hsubs : List.Forall₂ E c.subs cs)
    (hcurrent : ∀ i, c.current = some i →
      ∃ s d, c.subs[i]? = some s ∧ w.isValid s = true ∧ R s d) :
    ∃ l, StandsAmong E R c l := by
  cases hi : c.current with
  | none => exact ⟨⟨joined cs, none⟩, cs, hsubs, rfl, .inl ⟨hi, rfl⟩⟩
  | some i =>
      obtain ⟨s, d, hs, hv, hd⟩ := hcurrent i hi
      rw [hw.isValid hd] at hv
      obtain ⟨p, hp⟩ := Option.isSome_iff_exists.mp hv
      have hlen : i < cs.length := by
        rw [← hsubs.length_eq]
        exact (List.getElem?_eq_some_iff.mp hs).1
      exact ⟨⟨joined (cs.set i d), some (offset (cs.set i d) i + p)⟩, cs.set i d,
        forall₂_set hsubs hs (he.weaken hd), rfl,
        .inr ⟨i, s, d, p, hi, hs, List.getElem?_set_self hlen, hd, hp, rfl⟩⟩

theorem exists_sub {subs : List S} {cs : List ListCursor} (h : List.Forall₂ R subs cs) {i : Nat}
    {d : ListCursor} (hd : cs[i]? = some d) : ∃ s, subs[i]? = some s ∧ R s d := by
  obtain ⟨hi, rfl⟩ := List.getElem?_eq_some_iff.mp hd
  have hi' : i < subs.length := by rw [h.length_eq]; exact hi
  exact ⟨subs[i], List.getElem?_eq_getElem hi', h.get hi' hi⟩

theorem standsAmong_self {c : Concat S} {l : ListCursor} :
    StandsAmong R R c l ↔ Stands R c l := by
  constructor
  · rintro ⟨cs, hsubs, hitems, hnone | ⟨i, s, d, p, hi, -, hd, -, hp, hpos⟩⟩
    · exact ⟨cs, hsubs, hitems, .inl hnone⟩
    · exact ⟨cs, hsubs, hitems, .inr ⟨i, d, p, hi, hd, hp, hpos⟩⟩
  · rintro ⟨cs, hsubs, hitems, hnone | ⟨i, d, p, hi, hd, hp, hpos⟩⟩
    · exact ⟨cs, hsubs, hitems, .inl hnone⟩
    · obtain ⟨s, hs, hR⟩ := exists_sub hsubs hd
      exact ⟨cs, hsubs, hitems, .inr ⟨i, s, d, p, hi, hs, hd, hR, hp, hpos⟩⟩

/-! ### Entering cursors -/

/-- Enter cursors by a move to an end, up to the first one that has elements. -/
def enter (w : Walk S) (m : Step) : List S → List S × Option Nat
  | [] => ([], none)
  | s :: rest =>
    let s := w.step m s
    if w.isValid s then (s :: rest, some 0)
    else
      let (rest, found) := enter w m rest
      (s :: rest, found.map (· + 1))

theorem enterForward_eq (subs : List S) : enterForward w subs = enter w .first subs := by
  induction subs with
  | nil => rfl
  | cons s rest ih => simp only [enterForward, enter, ih]

theorem enterBackward_eq (subs : List S) : enterBackward w subs = enter w .last subs := by
  induction subs with
  | nil => rfl
  | cons s rest ih => simp only [enterBackward, enter, ih]

/-- What entering finds: no cursor where none has elements, and else the first one that has some. -/
structure Entered (E R : S → ListCursor → Prop) (m : Step) (cs : List ListCursor)
    (found : List S × Option Nat) (ds : List ListCursor) : Prop where
  subs : List.Forall₂ E found.1 ds
  items : ds.map ListCursor.items = cs.map ListCursor.items
  none : found.2 = none → joined ds = []
  some : ∀ k, found.2 = some k → joined (ds.take k) = [] ∧ ∃ (s : S) (d : ListCursor),
    found.1[k]? = some s ∧ ds[k]? = some (d.step m) ∧ R s (d.step m) ∧ (d.step m).isValid = true

theorem exists_entered (hw : w.Follows R) (he : Enters w E R) {m : Step}
    (hm : m = .first ∨ m = .last) {subs : List S} {cs : List ListCursor}
    (h : List.Forall₂ E subs cs) : ∃ ds, Entered E R m cs (enter w m subs) ds := by
  induction h with
  | nil => exact ⟨[], .nil, rfl, fun _ => rfl, nofun⟩
  | @cons s d subs cs hs hsubs ih =>
      have hstep := he.enter hs hm
      have hitems : (d.step m).items = d.items := d.items_step m
      rw [enter]
      split
      next hvalid =>
        refine ⟨d.step m :: cs, .cons (he.weaken hstep) hsubs, by simp, nofun, ?_⟩
        intro k hk
        cases hk
        exact ⟨rfl, w.step m s, d, rfl, rfl, hstep, (hw.isValid hstep).symm.trans hvalid⟩
      next hvalid =>
        -- a cursor that cannot be entered has no elements, so nothing is skipped
        have hempty : (d.step m).items = [] := by
          rw [hw.isValid hstep] at hvalid
          rw [hitems]
          exact ListCursor.items_eq_nil hm hvalid
        obtain ⟨ds, hds, hmap, hnone, hsome⟩ := ih
        refine ⟨d.step m :: ds, .cons (he.weaken hstep) hds, by simp [hmap], ?_, ?_⟩
        · intro hfound
          show (d.step m).items ++ joined ds = []
          rw [hempty, List.nil_append]
          exact hnone (Option.map_eq_none_iff.mp hfound)
        · intro k hk
          obtain ⟨k', hk', rfl⟩ := Option.map_eq_some_iff.mp hk
          obtain ⟨hbefore, found⟩ := hsome k' hk'
          refine ⟨?_, found⟩
          show (d.step m).items ++ joined (ds.take k') = []
          rw [hempty, List.nil_append]
          exact hbefore

theorem current_firstFrom (w : Walk S) (i : Nat) (c : Concat S) :
    (c.firstFrom w i).current = (enterForward w (c.subs.drop i)).2.map (i + ·) := rfl

theorem current_lastBefore (w : Walk S) (i : Nat) (c : Concat S) :
    (c.lastBefore w i).current = (enterBackward w (c.subs.take i).reverse).2.map
      ((enterBackward w (c.subs.take i).reverse).1.length - 1 - ·) := rfl

/-- **Entering the cursors from number `i` on leads behind everything before them.** -/
theorem standsAmong_firstFrom (hw : w.Follows R) (he : Enters w E R) {c : Concat S}
    {cs : List ListCursor} (h : List.Forall₂ E c.subs cs) {i : Nat} (hi : i ≤ cs.length) :
    StandsAmong E R (c.firstFrom w i) (ListCursor.seek ⟨joined cs, none⟩ (offset cs i)) := by
  obtain ⟨ds, hsubs, hmap, hnone, hsome⟩ :=
    exists_entered hw he (.inl rfl) (List.forall₂_drop i h)
  rw [← enterForward_eq] at hsubs hnone hsome
  have hitems : (cs.take i ++ ds).map ListCursor.items = cs.map ListCursor.items := by
    rw [List.map_append, hmap, ← List.map_append, List.take_append_drop]
  refine ⟨cs.take i ++ ds, List.rel_append (List.forall₂_take i h) hsubs,
    (joined_congr hitems).symm, ?_⟩
  cases hfound : (enterForward w (c.subs.drop i)).2 with
  | none =>
      have htotal := offset_add_drop cs i
      rw [← joined_congr hmap, hnone hfound, List.length_nil] at htotal
      refine .inl ⟨by rw [current_firstFrom, hfound]; rfl, ?_⟩
      rw [ListCursor.seek, if_neg (by simp only; omega)]
  | some k =>
      obtain ⟨hbefore, s, d, hs, hd, hR, hvalid⟩ := hsome k hfound
      have hlen : (cs.take i).length = i := by rw [List.length_take, Nat.min_eq_left hi]
      have hlen' : (c.subs.take i).length = i := by
        rw [List.length_take, h.length_eq, Nat.min_eq_left hi]
      have hget' : (c.firstFrom w i).subs[i + k]? = some s := by
        show (c.subs.take i ++ _)[i + k]? = _
        rw [List.getElem?_append_right (by omega), hlen', Nat.add_sub_cancel_left, hs]
      have hget : (cs.take i ++ ds)[i + k]? = some (d.step .first) := by
        rw [List.getElem?_append_right (by omega), hlen, Nat.add_sub_cancel_left, hd]
      -- the cursors from number `i` up to the found one have no elements
      have hoffset : offset (cs.take i ++ ds) (i + k) = offset cs i := by
        rw [offset, List.take_append, hlen, Nat.add_sub_cancel_left, joined_append, hbefore,
          List.append_nil, List.take_of_length_le (by omega)]
        rfl
      have hlt : 0 < (d.step .first).items.length := by
        rw [d.items_step]
        exact ListCursor.length_pos_of_isValid (.inl rfl) hvalid
      refine .inr ⟨i + k, s, _, 0, by rw [current_firstFrom, hfound]; rfl, hget', hget, hR, ?_, ?_⟩
      · exact if_pos (by rwa [d.items_step] at hlt)
      · have htotal := offset_add_lt hget hlt
        rw [hoffset, joined_congr hitems] at htotal
        rw [ListCursor.seek, hoffset]
        exact if_pos htotal

/-- **Entering the cursors before number `i` leads right before everything behind them.** -/
theorem standsAmong_lastBefore (hw : w.Follows R) (he : Enters w E R) {c : Concat S}
    {cs : List ListCursor} (h : List.Forall₂ E c.subs cs) (i : Nat) :
    StandsAmong E R (c.lastBefore w i) (ListCursor.seekBack ⟨joined cs, none⟩ (offset cs i)) := by
  obtain ⟨ds, hsubs, hmap, hnone, hsome⟩ :=
    exists_entered hw he (.inr rfl) (List.forall₂_reverse_iff.mpr (List.forall₂_take i h))
  rw [← enterBackward_eq] at hsubs hnone hsome
  have hmap' : ds.reverse.map ListCursor.items = (cs.take i).map ListCursor.items := by
    rw [List.map_reverse, hmap, ← List.map_reverse, List.reverse_reverse]
  have hitems : (ds.reverse ++ cs.drop i).map ListCursor.items = cs.map ListCursor.items := by
    rw [List.map_append, hmap', ← List.map_append, List.take_append_drop]
  refine ⟨ds.reverse ++ cs.drop i,
    List.rel_append (List.forall₂_reverse_iff.mpr hsubs) (List.forall₂_drop i h),
    (joined_congr hitems).symm, ?_⟩
  have hoffset : offset cs i = (joined ds.reverse).length := by rw [offset, joined_congr hmap']
  have hlength : (enterBackward w (c.subs.take i).reverse).1.length = ds.length := hsubs.length_eq
  cases hfound : (enterBackward w (c.subs.take i).reverse).2 with
  | none =>
      have hempty : ∀ d ∈ ds, d.items = [] := List.flatMap_eq_nil_iff.mp (hnone hfound)
      rw [joined_eq_nil fun d hd => hempty d (List.mem_reverse.mp hd), List.length_nil] at hoffset
      refine .inl ⟨by rw [current_lastBefore, hfound]; rfl, ?_⟩
      rw [ListCursor.seekBack, if_pos hoffset]
  | some k =>
      obtain ⟨hbefore, s, d, hs, hd, hR, hvalid⟩ := hsome k hfound
      obtain ⟨hk, hdk⟩ := List.getElem?_eq_some_iff.mp hd
      have hsub : (c.lastBefore w i).subs[ds.length - 1 - k]? = some s := by
        show ((enterBackward w (c.subs.take i).reverse).1.reverse ++ _)[ds.length - 1 - k]? = _
        rw [List.getElem?_append_left (by rw [List.length_reverse, hlength]; omega),
          List.getElem?_reverse (by omega), ← hs, hlength]
        congr 1
        omega
      have hget : ds.reverse[ds.length - 1 - k]? = some (d.step .last) := by
        rw [List.getElem?_reverse (by omega), ← hd]
        congr 1
        omega
      have hget' : (ds.reverse ++ cs.drop i)[ds.length - 1 - k]? = some (d.step .last) := by
        rw [List.getElem?_append_left (by rw [List.length_reverse]; omega), hget]
      have hpos := ListCursor.length_pos_of_isValid (.inr rfl) hvalid
      -- the cursors between the found one and number `i` have no elements
      have hbehind : joined (ds.reverse.drop (ds.length - 1 - k + 1)) = [] := by
        apply joined_eq_nil
        intro e he
        rw [List.drop_reverse, List.mem_reverse] at he
        exact List.flatMap_eq_nil_iff.mp hbefore e (by convert he using 2; omega)
      have htotal : offset cs i =
          offset (ds.reverse ++ cs.drop i) (ds.length - 1 - k) + d.items.length := by
        have hsplit := offset_add_drop ds.reverse (ds.length - 1 - k + 1)
        rw [hbehind, offset_succ hget, d.items_step] at hsplit
        rw [hoffset, ← hsplit, offset, offset,
          List.take_append_of_le_length (by rw [List.length_reverse]; omega)]
        rfl
      refine .inr ⟨_, s, _, d.items.length - 1, ?_, hsub, hget', hR, ?_, ?_⟩
      · rw [current_lastBefore, hfound, hlength]
        rfl
      · exact if_neg (by omega)
      · rw [ListCursor.seekBack, htotal, if_neg (by omega)]
        simp only [Option.some.injEq]
        omega

/-! ### Moving -/

section Moves

variable {c : Concat S} {l : ListCursor}

@[simp] theorem items_modify (m : Step) (cs : List ListCursor) (i : Nat) :
    (cs.modify i (ListCursor.step m)).map ListCursor.items = cs.map ListCursor.items :=
  map_modify (fun d => d.items_step m) cs i

/-- The current cursor takes a step, and the others stay. -/
theorem forall₂_current (hw : w.Follows R) (he : Enters w E R) {subs : List S}
    {cs : List ListCursor} (h : List.Forall₂ E subs cs) {i : Nat} {s : S} {d : ListCursor}
    (hs : subs[i]? = some s) (hd : cs[i]? = some d) (hR : R s d) (m : Step) :
    List.Forall₂ E (subs.modify i (w.step m)) (cs.modify i (ListCursor.step m)) := by
  induction h generalizing i with
  | nil => cases hs
  | cons hE hrest ih =>
      cases i with
      | zero =>
          cases hs
          cases hd
          exact .cons (he.weaken (hw.step hR m)) hrest
      | succ i => exact .cons hE (ih hs hd)

theorem subValid_eq (hw : w.Follows R) {i : Nat} {s : S} {d : ListCursor}
    (hs : c.subs[i]? = some s) (hR : R s d) : c.subValid w i = d.isValid := by
  rw [subValid, hs]
  exact hw.isValid hR

theorem StandsAmong.step_next (hw : w.Follows R) (he : Enters w E R) (h : StandsAmong E R c l) :
    StandsAmong E R (c.step w .next) (l.step .next) := by
  obtain ⟨cs, hsubs, hitems, ⟨hnone, hpos⟩ | ⟨i, s, d, p, hi, hs, hd, hR, hp, hpos⟩⟩ := id h
  · simp only [step, hnone, ListCursor.step, hpos]
    exact h
  · have hsubs' := forall₂_current hw he hsubs hs hd hR .next
    have hitems' := items_modify .next cs i
    have hs' : (c.subs.modify i (w.step .next))[i]? = some (w.step .next s) := by
      rw [List.getElem?_modify_eq, hs]
      rfl
    have hd' : (cs.modify i (ListCursor.step .next))[i]? = some (d.step .next) := by
      rw [List.getElem?_modify_eq, hd]
      rfl
    have hR' := hw.step hR .next
    have hlt := hw.inRange hR p hp
    rw [ListCursor.step_next_of_position hpos, hitems]
    simp only [step, hi]
    rw [subValid_eq hw hs' hR', ListCursor.step_next_of_position hp]
    split
    next hvalid =>
      -- the current cursor has a next element
      have hp' : p + 1 < d.items.length := by
        by_contra hge
        rw [ListCursor.isValid, ListCursor.seek, if_neg hge] at hvalid
        cases hvalid
      refine ⟨_, hsubs', (joined_congr hitems').symm,
        .inr ⟨i, _, _, p + 1, rfl, hs', hd', hR', ?_, ?_⟩⟩
      · rw [ListCursor.step_next_of_position hp]
        exact if_pos hp'
      · rw [offset_congr hitems']
        exact if_pos (offset_add_lt hd hp')
    next hinvalid =>
      -- it was at its last element, so the cursors behind it are entered
      have hp' : p + 1 = d.items.length := by
        by_contra hne
        rw [ListCursor.isValid, ListCursor.seek, if_pos (show p + 1 < d.items.length by omega)]
          at hinvalid
        exact hinvalid rfl
      have hi' : i + 1 ≤ (cs.modify i (ListCursor.step .next)).length :=
        (List.getElem?_eq_some_iff.mp hd').1
      have hstands := standsAmong_firstFrom hw he
        (c := { c with subs := c.subs.modify i (w.step .next) }) hsubs' hi'
      rw [joined_congr hitems', offset_congr hitems', offset_succ hd, ← hp'] at hstands
      exact hstands

theorem StandsAmong.step_previous (hw : w.Follows R) (he : Enters w E R)
    (h : StandsAmong E R c l) : StandsAmong E R (c.step w .previous) (l.step .previous) := by
  obtain ⟨cs, hsubs, hitems, ⟨hnone, hpos⟩ | ⟨i, s, d, p, hi, hs, hd, hR, hp, hpos⟩⟩ := id h
  · simp only [step, hnone, ListCursor.step, hpos]
    exact h
  · have hsubs' := forall₂_current hw he hsubs hs hd hR .previous
    have hitems' := items_modify .previous cs i
    have hs' : (c.subs.modify i (w.step .previous))[i]? = some (w.step .previous s) := by
      rw [List.getElem?_modify_eq, hs]
      rfl
    have hd' : (cs.modify i (ListCursor.step .previous))[i]? = some (d.step .previous) := by
      rw [List.getElem?_modify_eq, hd]
      rfl
    have hR' := hw.step hR .previous
    rw [ListCursor.step_previous_of_position hpos, hitems]
    simp only [step, hi]
    rw [subValid_eq hw hs' hR', ListCursor.step_previous_of_position hp]
    -- at its first element the cursors before it are entered from their ends
    cases p with
    | zero =>
        have hstands := standsAmong_lastBefore hw he
          (c := { c with subs := c.subs.modify i (w.step .previous) }) hsubs' i
        rw [joined_congr hitems', offset_congr hitems'] at hstands
        exact hstands
    | succ p =>
        refine ⟨_, hsubs', (joined_congr hitems').symm,
          .inr ⟨i, _, _, p, rfl, hs', hd', hR', ?_, ?_⟩⟩
        · rw [ListCursor.step_previous_of_position hp]
          rfl
        · rw [offset_congr hitems']
          rfl

/-- **A concatenation follows the list of all its cursors**, as soon as the current one does. -/
theorem StandsAmong.step (hw : w.Follows R) (he : Enters w E R) (h : StandsAmong E R c l)
    (m : Step) : StandsAmong E R (c.step w m) (l.step m) := by
  cases m with
  | first =>
      obtain ⟨cs, hsubs, hitems, -⟩ := h
      have hstands := standsAmong_firstFrom hw he hsubs (Nat.zero_le _)
      rw [← hitems] at hstands
      exact hstands
  | last =>
      obtain ⟨cs, hsubs, hitems, -⟩ := h
      have hstands := standsAmong_lastBefore hw he hsubs c.subs.length
      rw [hsubs.length_eq, offset_length, ← hitems, ← hsubs.length_eq] at hstands
      exact hstands
  | next => exact h.step_next hw he
  | previous => exact h.step_previous hw he

theorem StandsAmong.inRange (hw : w.Follows R) (h : StandsAmong E R c l) : l.InRange := by
  intro q hq
  obtain ⟨cs, hsubs, hitems, ⟨-, hpos⟩ | ⟨i, s, d, p, -, -, hd, hR, hp, hpos⟩⟩ := h
  · rw [hq] at hpos
    cases hpos
  · rw [hq] at hpos
    cases hpos
    rw [hitems]
    exact offset_add_lt hd (hw.inRange hR p hp)

theorem StandsAmong.isValid (h : StandsAmong E R c l) : c.isValid = l.isValid := by
  obtain ⟨cs, hsubs, hitems, ⟨hnone, hpos⟩ | ⟨i, s, d, p, hi, -, -, -, -, hpos⟩⟩ := h
  · rw [Concat.isValid, hnone, ListCursor.isValid, hpos]
  · rw [Concat.isValid, hi, ListCursor.isValid, hpos]
    rfl

theorem StandsAmong.element? (hw : w.Follows R) (h : StandsAmong E R c l) :
    c.element? w = l.element? := by
  obtain ⟨cs, hsubs, hitems, ⟨hnone, hpos⟩ | ⟨i, s, d, p, hi, hs, hd, hR, hp, hpos⟩⟩ := h
  · rw [Concat.element?, hnone, ListCursor.element?, hpos]
    rfl
  · rw [Concat.element?, hi, Option.bind_some, hs, Option.bind_some, hw.element? hR,
      ListCursor.element?, hp, ListCursor.element?, hpos, Option.bind_some, Option.bind_some,
      hitems, getElem?_joined hd (hw.inRange hR p hp)]

/-! Where all cursors follow, so does the concatenation. -/

theorem stands_firstFrom (hw : w.Follows R) {cs : List ListCursor}
    (h : List.Forall₂ R c.subs cs) {i : Nat} (hi : i ≤ cs.length) :
    Stands R (c.firstFrom w i) (ListCursor.seek ⟨joined cs, none⟩ (offset cs i)) :=
  standsAmong_self.mp (standsAmong_firstFrom hw (enters_of_follows hw) h hi)

theorem stands_lastBefore (hw : w.Follows R) {cs : List ListCursor}
    (h : List.Forall₂ R c.subs cs) (i : Nat) :
    Stands R (c.lastBefore w i) (ListCursor.seekBack ⟨joined cs, none⟩ (offset cs i)) :=
  standsAmong_self.mp (standsAmong_lastBefore hw (enters_of_follows hw) h i)

theorem Stands.step (hw : w.Follows R) (h : Stands R c l) (m : Step) :
    Stands R (c.step w m) (l.step m) :=
  standsAmong_self.mp ((standsAmong_self.mpr h).step hw (enters_of_follows hw) m)

theorem Stands.inRange (hw : w.Follows R) (h : Stands R c l) : l.InRange :=
  (standsAmong_self.mpr h).inRange hw

theorem Stands.isValid (h : Stands R c l) : c.isValid = l.isValid :=
  (standsAmong_self.mpr h).isValid

theorem Stands.element? (hw : w.Follows R) (h : Stands R c l) : c.element? w = l.element? :=
  (standsAmong_self.mpr h).element? hw

end Moves

/-! ### Rebinding -/

section Rebinding

variable {c : Concat S} {rebindSub : Rebind → S → S}

/-- Cursors that each rebind to an end of their new lists. -/
theorem forall₂_rebind {r : Rebind} {m : Step} {live : S → List FeatureStructure} {subs : List S}
    (h : ∀ s ∈ subs, R (rebindSub r s) (ListCursor.step m ⟨live s, none⟩)) :
    List.Forall₂ R (subs.map (rebindSub r))
      (subs.map fun s => ListCursor.step m ⟨live s, none⟩) := by
  rw [List.forall₂_map_left_iff, List.forall₂_map_right_iff]
  exact List.forall₂_same.mpr h

theorem joined_rebind (m : Step) (live : S → List FeatureStructure) (subs : List S) :
    joined (subs.map fun s => ListCursor.step m ⟨live s, none⟩) = subs.flatMap live := by
  rw [joined, List.flatMap_map]
  exact List.flatMap_congr fun s _ => ListCursor.items_step m _

/-- **A concatenation that rebinds to an end stands at that end of the new lists.** -/
theorem stands_rebind_first (hw : w.Follows R) {live : S → List FeatureStructure}
    (h : ∀ s ∈ c.subs, R (rebindSub .first s) (ListCursor.step .first ⟨live s, none⟩)) :
    Stands R (c.rebind w rebindSub .first)
      (ListCursor.step .first ⟨c.subs.flatMap live, none⟩) := by
  have hstands := stands_firstFrom hw (c := { c with subs := c.subs.map (rebindSub .first) })
    (forall₂_rebind h) (Nat.zero_le _)
  rw [joined_rebind] at hstands
  exact hstands

theorem stands_rebind_last (hw : w.Follows R) {live : S → List FeatureStructure}
    (h : ∀ s ∈ c.subs, R (rebindSub .last s) (ListCursor.step .last ⟨live s, none⟩)) :
    Stands R (c.rebind w rebindSub .last) (ListCursor.step .last ⟨c.subs.flatMap live, none⟩) := by
  have hsubs := forall₂_rebind h
  have hlength :
      c.subs.length = (c.subs.map fun s => ListCursor.step .last ⟨live s, none⟩).length :=
    (List.length_map ..).symm
  have hstands := stands_lastBefore hw (c := { c with subs := c.subs.map (rebindSub .last) })
    hsubs c.subs.length
  rw [hlength, offset_length, joined_rebind, ← hlength] at hstands
  exact hstands

theorem exists_of_forall₂ {subs : List S} {cs : List ListCursor} (h : List.Forall₂ R subs cs) :
    ∀ s ∈ subs, ∃ d, R s d := by
  induction h with
  | nil => exact nofun
  | cons hs _ ih => exact List.forall_mem_cons.mpr ⟨⟨_, hs⟩, ih⟩

theorem exists_forall₂ {subs : List S} (h : ∀ s ∈ subs, ∃ d, R s d) :
    ∃ cs, List.Forall₂ R subs cs := by
  induction subs with
  | nil => exact ⟨[], .nil⟩
  | cons s rest ih =>
      obtain ⟨d, hd⟩ := h s List.mem_cons_self
      obtain ⟨cs, hcs⟩ := ih fun s hs => h s (List.mem_cons_of_mem _ hs)
      exact ⟨d :: cs, .cons hd hcs⟩

/-- The position in the lists of some cursors together where the first match is found. -/
def meeting (isMatch : FeatureStructure → Bool) : List ListCursor → Option Nat
  | [] => none
  | d :: rest =>
    if d.element?.any isMatch then d.position
    else (meeting isMatch rest).map (d.items.length + ·)

theorem offset_cons (d : ListCursor) (cs : List ListCursor) (i : Nat) :
    offset (d :: cs) (i + 1) = d.items.length + offset cs i := by
  rw [offset, offset, List.take_succ_cons, joined, joined, List.flatMap_cons, List.length_append]

/-- **A search ends in the first cursor that comes to stand at a match**, or nowhere. `P` is what
all cursors have after the search; nothing has to be known of what the search did not come to, or
has moved. -/
theorem standsAmong_findMatch (hw : w.Follows R) (he : Enters w E R) (c : Concat S)
    (isMatch : FeatureStructure → Bool) {rebind : S → S} {P : S → Prop} {subs : List S}
    {cs ds : List ListCursor} (hP : ∀ s ∈ (findMatch w rebind isMatch subs).1, P s)
    (hold : List.Forall₂ (fun s c => P s → E s c) subs cs)
    (hnew : List.Forall₂ (fun s d => P (rebind s) → R (rebind s) d) subs ds) :
    ∃ items, StandsAmong E R { c with
        subs := (findMatch w rebind isMatch subs).1
        current := (findMatch w rebind isMatch subs).2 }
      ⟨items, meeting isMatch ds⟩ := by
  induction hold generalizing ds with
  | nil =>
      cases hnew
      exact ⟨[], [], .nil, rfl, .inl ⟨rfl, rfl⟩⟩
  | @cons s c subs cs hs hsubs ih =>
      cases hnew with
      | @cons _ d _ ds hd hds =>
          have hP' : P (rebind s) := by
            refine hP _ ?_
            rw [findMatch]
            split <;> exact List.mem_cons_self
          have hR := hd hP'
          have hcond : (w.isValid (rebind s) && (w.element? (rebind s)).any isMatch) =
              d.element?.any isMatch := by
            rw [hw.isValid hR, hw.element? hR, (hw.inRange hR).isValid_eq]
            cases d.element? <;> rfl
          rw [findMatch, hcond] at hP
          rw [findMatch, hcond, meeting]
          by_cases hmatch : d.element?.any isMatch = true
          · -- the cursors behind the match stay as they are
            obtain ⟨x, hx, -⟩ := (Option.any_eq_true _ _).mp hmatch
            obtain ⟨p, hp, -⟩ := Option.bind_eq_some_iff.mp hx
            simp only [hmatch, ↓reduceIte] at hP ⊢
            have hrest := (List.forall₂_and_left subs cs).mpr
              ⟨fun t ht => hP t (List.mem_cons_of_mem _ ht), hsubs⟩
            refine ⟨_, d :: cs, .cons (he.weaken hR) (hrest.imp fun _ _ ht => ht.2 ht.1), rfl,
              .inr ⟨0, rebind s, d, p, rfl, rfl, rfl, hR, hp, ?_⟩⟩
            show d.position = _
            rw [hp]
            exact congrArg some (Nat.zero_add p).symm
          · simp only [hmatch, Bool.false_eq_true, ↓reduceIte] at hP ⊢
            obtain ⟨_, cs', hcs', -, hfound⟩ :=
              ih (fun t ht => hP t (List.mem_cons_of_mem _ ht)) hds
            refine ⟨_, d :: cs', .cons (he.weaken hR) hcs', rfl, ?_⟩
            rcases hfound with ⟨hnone, hmeeting⟩ | ⟨i, t, e, p, hi, ht, hget, hRt, hp, hmeeting⟩
            · exact .inl ⟨congrArg (Option.map _) hnone, congrArg (Option.map _) hmeeting⟩
            · refine .inr ⟨i + 1, t, e, p, congrArg (Option.map _) hi, ht, hget, hRt, hp, ?_⟩
              show (meeting isMatch ds).map _ = _
              rw [show meeting isMatch ds = _ from hmeeting, offset_cons, Nat.add_assoc]
              rfl

/-- **A concatenation that rebinds to a target** stands at the first match. -/
theorem standsAmong_rebind_toward (hw : w.Follows R) (he : Enters w E R)
    (rebindSub : Rebind → S → S) (target : FeatureStructure) {P : S → Prop}
    {cs ds : List ListCursor}
    (hP : ∀ s ∈ (c.rebind w rebindSub (.toward target)).subs, P s)
    (hold : List.Forall₂ (fun s c => P s → E s c) c.subs cs)
    (hnew : List.Forall₂ (fun s d =>
      P (rebindSub (.toward target) s) → R (rebindSub (.toward target) s) d) c.subs ds) :
    ∃ items, StandsAmong E R (c.rebind w rebindSub (.toward target))
      ⟨items, meeting (c.isMatch target) ds⟩ :=
  standsAmong_findMatch hw he c (c.isMatch target) hP hold hnew

theorem stands_rebind_toward (hw : w.Follows R) (rebindSub : Rebind → S → S)
    (target : FeatureStructure) {cs ds : List ListCursor} (hold : List.Forall₂ R c.subs cs)
    (hnew : List.Forall₂ (fun s d => R (rebindSub (.toward target) s) d) c.subs ds) :
    ∃ items, Stands R (c.rebind w rebindSub (.toward target))
      ⟨items, meeting (c.isMatch target) ds⟩ := by
  obtain ⟨items, hstands⟩ := standsAmong_rebind_toward (P := fun _ => True) hw
    (enters_of_follows hw) rebindSub target (fun _ _ => trivial)
    (hold.imp fun _ _ hs _ => hs) (hnew.imp fun _ _ hs _ => hs)
  exact ⟨items, standsAmong_self.mp hstands⟩

theorem exists_stands_rebind (hw : w.Follows R) (target : FeatureStructure)
    (hold : ∀ s ∈ c.subs, ∃ d, R s d)
    (hnew : ∀ s ∈ c.subs, ∃ d, R (rebindSub (.toward target) s) d) :
    ∃ l, Stands R (c.rebind w rebindSub (.toward target)) l := by
  obtain ⟨cs, hcs⟩ := exists_forall₂ hold
  obtain ⟨ds, hds⟩ := exists_forall₂ (R := fun s d => R (rebindSub (.toward target) s) d) hnew
  obtain ⟨items, hstands⟩ := stands_rebind_toward hw rebindSub target hcs hds
  exact ⟨_, hstands⟩

end Rebinding

/-! ### What moves leave alone -/

section Preserving

variable {ρ : S → S → Prop} {c : Concat S} {subs : List S}

theorem forall₂_enter (hρ : w.Preserves ρ) {subs' : List S} (h : List.Forall₂ ρ subs subs')
    (m : Step) : List.Forall₂ ρ subs (enter w m subs').1 := by
  induction h with
  | nil => exact .nil
  | cons hs hrest ih =>
      rw [enter]
      split
      · exact .cons (hρ.step hs m) hrest
      · exact .cons (hρ.step hs m) ih

theorem forall₂_firstFrom (hρ : w.Preserves ρ) (h : List.Forall₂ ρ subs c.subs) (i : Nat) :
    List.Forall₂ ρ subs (c.firstFrom w i).subs := by
  have hsplit := List.rel_append (List.forall₂_take i h)
    (forall₂_enter hρ (List.forall₂_drop i h) .first)
  simp only [List.take_append_drop, ← enterForward_eq] at hsplit
  exact hsplit

theorem forall₂_lastBefore (hρ : w.Preserves ρ) (h : List.Forall₂ ρ subs c.subs) (i : Nat) :
    List.Forall₂ ρ subs (c.lastBefore w i).subs := by
  have hentered := forall₂_enter hρ (List.forall₂_reverse_iff.mpr (List.forall₂_take i h)) .last
  have hsplit := List.rel_append (List.forall₂_reverse_iff.mpr hentered) (List.forall₂_drop i h)
  simp only [List.reverse_reverse, List.take_append_drop, ← enterBackward_eq] at hsplit
  exact hsplit

theorem forall₂_modify_step (hρ : w.Preserves ρ) {subs' : List S} (h : List.Forall₂ ρ subs subs')
    (i : Nat) (m : Step) : List.Forall₂ ρ subs (subs'.modify i (w.step m)) := by
  induction h generalizing i with
  | nil => cases i <;> exact .nil
  | cons hs hrest ih =>
      cases i with
      | zero => exact .cons (hρ.step hs m) hrest
      | succ i => exact .cons hs (ih i)

/-- **A step moves the cursors of a concatenation by their own steps only.** -/
theorem forall₂_step (hρ : w.Preserves ρ) (h : List.Forall₂ ρ subs c.subs) (m : Step) :
    List.Forall₂ ρ subs (c.step w m).subs := by
  cases m with
  | first => exact forall₂_firstFrom hρ h 0
  | last => exact forall₂_lastBefore hρ h _
  | next =>
      rw [step]
      split
      · exact h
      next i hi =>
        have hmodify := forall₂_modify_step hρ h i .next
        dsimp only
        split
        · exact hmodify
        · exact forall₂_firstFrom hρ (c := { c with subs := c.subs.modify i (w.step .next) })
            hmodify (i + 1)
  | previous =>
      rw [step]
      split
      · exact h
      next i hi =>
        have hmodify := forall₂_modify_step hρ h i .previous
        dsimp only
        split
        · exact hmodify
        · exact forall₂_lastBefore hρ (c := { c with subs := c.subs.modify i (w.step .previous) })
            hmodify i

/-- How many cursors a rebinding comes to: all of them, or those up to the first one that then
stands at a match. -/
def reached (w : Walk S) (rebindSub : Rebind → S → S) (c : Concat S) : Rebind → Nat
  | .toward target =>
    match (findMatch w (rebindSub (.toward target)) (c.isMatch target) c.subs).2 with
    | some i => i + 1
    | none => c.subs.length
  | .first | .last => c.subs.length

/-- An end is looked for in every cursor. -/
theorem reached_of_end {r : Rebind} (hend : ∀ target, r ≠ .toward target) (w : Walk S)
    (rebindSub : Rebind → S → S) (c : Concat S) : c.reached w rebindSub r = c.subs.length := by
  cases r with
  | toward target => exact absurd rfl (hend target)
  | first => rfl
  | last => rfl

theorem findMatch_eq (w : Walk S) (rebind : S → S) (isMatch : FeatureStructure → Bool)
    (subs : List S) : ∃ k, (findMatch w rebind isMatch subs).1 =
        (subs.take k).map rebind ++ subs.drop k ∧
      k = match (findMatch w rebind isMatch subs).2 with
        | some i => i + 1
        | none => subs.length := by
  induction subs with
  | nil => exact ⟨0, rfl, rfl⟩
  | cons s rest ih =>
      rw [findMatch]
      split
      · exact ⟨1, rfl, rfl⟩
      · obtain ⟨k, hsubs, hk⟩ := ih
        refine ⟨k + 1, congrArg (rebind s :: ·) hsubs, ?_⟩
        rw [hk]
        dsimp only
        cases (findMatch w rebind isMatch rest).2 <;> rfl

/-- **A rebinding rebinds the cursors that it comes to**, leaves the others as they are, and then
only takes steps. -/
theorem forall₂_subs_rebind (hρ : w.Preserves ρ) (rebindSub : Rebind → S → S) (r : Rebind) :
    List.Forall₂ ρ
      ((c.subs.take (c.reached w rebindSub r)).map (rebindSub r) ++
        c.subs.drop (c.reached w rebindSub r))
      (c.rebind w rebindSub r).subs := by
  have hrefl : ∀ subs : List S, List.Forall₂ ρ subs subs := fun subs =>
    List.forall₂_same.mpr fun s _ => hρ.refl s
  cases r with
  | first =>
      simp only [reached, List.take_length, List.drop_length, List.append_nil]
      exact forall₂_firstFrom hρ (c := { c with subs := _ }) (hrefl _) 0
  | last =>
      simp only [reached, List.take_length, List.drop_length, List.append_nil]
      exact forall₂_lastBefore hρ (c := { c with subs := _ }) (hrefl _) _
  | toward target =>
      obtain ⟨k, hsubs, hk⟩ :=
        findMatch_eq w (rebindSub (.toward target)) (c.isMatch target) c.subs
      have hreached : c.reached w rebindSub (.toward target) = k := hk.symm
      rw [hreached, ← hsubs]
      exact hrefl _

theorem comparator_step (w : Walk S) (m : Step) (c : Concat S) :
    (c.step w m).comparator = c.comparator ∧ (c.step w m).kind = c.kind := by
  cases m <;> simp only [step]
  case first => exact ⟨rfl, rfl⟩
  case last => exact ⟨rfl, rfl⟩
  all_goals
    split
    · exact ⟨rfl, rfl⟩
    · split <;> exact ⟨rfl, rfl⟩

theorem comparator_rebind (w : Walk S) (rebindSub : Rebind → S → S) (r : Rebind) (c : Concat S) :
    (c.rebind w rebindSub r).comparator = c.comparator ∧
      (c.rebind w rebindSub r).kind = c.kind := by
  cases r <;> exact ⟨rfl, rfl⟩

end Preserving
end FeatureIndex.Concat
