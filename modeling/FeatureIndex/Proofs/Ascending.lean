import FeatureIndex.Store.Bisection
import Mathlib.Data.List.Sort

/-!
# Ascending lists and where conditions cut them

A store keeps a strictly ascending list, and looks things up by a condition that holds up to some
point of the list and fails from there on. `Ascending` and `Cuts` are these two notions.

A list is cut at the number of elements that meet the condition (`getElem_iff_lt_countP`), and
bisection finds that number whatever its seam is (`splitPoint_eq_countP`). Two ascending lists with
the same elements are the same list (`Ascending.ext`).
-/

namespace FeatureIndex

open Std (OrientedCmp TransCmp)

variable {α : Type} {cmp : α → α → Ordering}

/-- A list in strictly ascending order. -/
def Ascending (cmp : α → α → Ordering) (l : List α) : Prop := l.Pairwise fun a b => cmp a b = .lt

/-- A condition that, once it fails in a list, does not hold any more. -/
def Cuts (p : α → Bool) (l : List α) : Prop := l.Pairwise fun a b => p b = true → p a = true

/-- A condition that holds of everything below whatever it holds of. -/
def Lower (cmp : α → α → Ordering) (p : α → Bool) : Prop :=
  ∀ a b, cmp a b = .lt → p b = true → p a = true

/-! ### Lower conditions -/

theorem Lower.cuts {p : α → Bool} (h : Lower cmp p) {l : List α} (hl : Ascending cmp l) :
    Cuts p l :=
  hl.imp (h _ _)

theorem lower_lt [TransCmp cmp] (x : α) : Lower cmp fun e => cmp e x == .lt := by
  intro a b hab hb
  rw [beq_iff_eq] at hb ⊢
  exact TransCmp.lt_trans hab hb

theorem lower_ne_gt [TransCmp cmp] (x : α) : Lower cmp fun e => cmp e x != .gt := by
  intro a b hab hb
  rw [bne_iff_ne, ne_eq, Ordering.ne_gt_iff_isLE] at hb ⊢
  exact Ordering.isLE_of_eq_lt (TransCmp.lt_of_lt_of_isLE hab hb)

theorem lower_const (b : Bool) : Lower cmp fun _ => b := fun _ _ _ h => h

/-! ### Cuts -/

/-- **A list is cut at the number of elements that meet the condition.** -/
theorem getElem_iff_lt_countP {p : α → Bool} {l : List α} (h : Cuts p l) {i : Nat}
    (hi : i < l.length) : p l[i] = true ↔ i < l.countP p := by
  induction l generalizing i with
  | nil => simp at hi
  | cons a l ih =>
      obtain ⟨ha, hl⟩ := List.pairwise_cons.mp h
      by_cases hpa : p a = true
      · rw [List.countP_cons_of_pos hpa]
        cases i with
        | zero => simp [hpa]
        | succ i => simpa using ih hl (by simpa using hi)
      · -- past the cut nothing holds, and nothing is counted
        have hnone : ∀ b ∈ l, ¬ p b = true := fun b hb hpb => hpa (ha b hb hpb)
        rw [List.countP_cons_of_neg hpa, List.countP_eq_zero.mpr hnone]
        cases i with
        | zero => simp [hpa]
        | succ i => simpa using hnone _ (List.getElem_mem _)

/-- A condition that holds of exactly the first `k` elements is met by `k` of them. -/
theorem countP_eq_of_getElem_iff {p : α → Bool} {l : List α} {k : Nat} (hk : k ≤ l.length)
    (h : ∀ i (hi : i < l.length), p l[i] = true ↔ i < k) : l.countP p = k := by
  -- the first `k` elements all count, and nothing behind them does
  rw [← List.take_append_drop k l, List.countP_append]
  have htake : (l.take k).countP p = k := by
    rw [List.countP_eq_length.mpr, List.length_take, Nat.min_eq_left hk]
    intro a ha
    obtain ⟨i, hi, rfl⟩ := List.getElem_of_mem ha
    rw [List.length_take] at hi
    rw [List.getElem_take]
    exact (h i (by omega)).mpr (by omega)
  have hdrop : (l.drop k).countP p = 0 := by
    rw [List.countP_eq_zero]
    intro a ha
    obtain ⟨i, hi, rfl⟩ := List.getElem_of_mem ha
    rw [List.length_drop] at hi
    rw [List.getElem_drop, h _ (by omega)]
    omega
  omega

/-- Inserting at the cut leaves what meets the condition on the left of the new element. -/
theorem insertIdx_countP {p : α → Bool} {l : List α} (h : Cuts p l) (x : α) :
    l.insertIdx (l.countP p) x = l.takeWhile p ++ x :: l.dropWhile p := by
  induction l with
  | nil => rfl
  | cons a l ih =>
      obtain ⟨ha, hl⟩ := List.pairwise_cons.mp h
      by_cases hpa : p a = true
      · rw [List.countP_cons_of_pos hpa, List.insertIdx_succ_cons, ih hl,
          List.takeWhile_cons_of_pos hpa, List.dropWhile_cons_of_pos hpa, List.cons_append]
      · have hnone : ∀ b ∈ l, ¬ p b = true := fun b hb hpb => hpa (ha b hb hpb)
        rw [List.countP_cons_of_neg hpa, List.countP_eq_zero.mpr hnone,
          List.takeWhile_cons_of_neg hpa, List.dropWhile_cons_of_neg hpa]
        rfl

/-- What is behind the cut is what is left when all that meets the condition is dropped. -/
theorem drop_countP {α : Type} {p : α → Bool} {l : List α} (h : Cuts p l) :
    l.drop (l.countP p) = l.dropWhile p := by
  induction l with
  | nil => rfl
  | cons a l ih =>
      obtain ⟨ha, hl⟩ := List.pairwise_cons.mp h
      by_cases hpa : p a = true
      · rw [List.countP_cons_of_pos hpa, List.dropWhile_cons_of_pos hpa, List.drop_succ_cons, ih hl]
      · have hnone : ∀ b ∈ l, ¬ p b = true := fun b hb hpb => hpa (ha b hb hpb)
        rw [List.countP_cons_of_neg hpa, List.dropWhile_cons_of_neg hpa,
          List.countP_eq_zero.mpr hnone]
        rfl

theorem mem_dropWhile {p : α → Bool} {l : List α} (h : Cuts p l) {a : α} (ha : a ∈ l.dropWhile p) :
    p a = false := by
  induction l with
  | nil => simp at ha
  | cons b l ih =>
      obtain ⟨hb, hl⟩ := List.pairwise_cons.mp h
      by_cases hpb : p b = true
      · rw [List.dropWhile_cons_of_pos hpb] at ha
        exact ih hl ha
      · rw [List.dropWhile_cons_of_neg hpb] at ha
        rcases List.mem_cons.mp ha with rfl | ha
        · exact Bool.eq_false_iff.mpr hpb
        · exact Bool.eq_false_iff.mpr fun hpa => hpb (hb a ha hpa)

/-! ### Ascending lists -/

namespace Ascending

/-- Elements of an ascending list compare as their positions do. -/
theorem compare_getElem [OrientedCmp cmp] {l : List α} (h : Ascending cmp l) {i j : Nat}
    (hi : i < l.length) (hj : j < l.length) : cmp l[i] l[j] = compare i j := by
  rcases Nat.lt_trichotomy i j with hij | rfl | hij
  · rw [Nat.compare_eq_lt.mpr hij]
    exact List.pairwise_iff_getElem.mp h i j hi hj hij
  · rw [Nat.compare_eq_eq.mpr rfl]
    exact Std.ReflCmp.compare_self
  · rw [Nat.compare_eq_gt.mpr hij]
    exact OrientedCmp.gt_of_lt (List.pairwise_iff_getElem.mp h j i hj hi hij)

theorem nodup [OrientedCmp cmp] {l : List α} (h : Ascending cmp l) : l.Nodup := by
  rw [List.nodup_iff_injective_getElem]
  intro i j hij
  have hc := h.compare_getElem i.isLt j.isLt
  rw [show l[i.val] = l[j.val] from hij, h.compare_getElem j.isLt j.isLt,
    Nat.compare_eq_eq.mpr rfl] at hc
  exact Fin.ext (Nat.compare_eq_eq.mp hc.symm)

/-- Elements that compare equal are one element. -/
theorem eq_of_compare [OrientedCmp cmp] {l : List α} (h : Ascending cmp l) {a b : α} (ha : a ∈ l)
    (hb : b ∈ l) (hab : cmp a b = .eq) : a = b := by
  obtain ⟨i, hi, rfl⟩ := List.getElem_of_mem ha
  obtain ⟨j, hj, rfl⟩ := List.getElem_of_mem hb
  rw [h.compare_getElem hi hj, Nat.compare_eq_eq] at hab
  subst hab
  rfl

/-- **An ascending list is determined by its elements.** -/
theorem ext [TransCmp cmp] {l m : List α} (hl : Ascending cmp l) (hm : Ascending cmp m)
    (h : ∀ a, a ∈ l ↔ a ∈ m) : l = m := by
  refine List.Perm.eq_of_pairwise ?_ hl hm
    ((List.perm_ext_iff_of_nodup hl.nodup hm.nodup).mpr h)
  intro a b _ _ hab hba
  exact absurd hba (OrientedCmp.not_lt_of_lt hab)

/-- As many elements stand before an element as its position says. -/
theorem countP_lt_getElem [OrientedCmp cmp] {l : List α} (h : Ascending cmp l) {i : Nat}
    (hi : i < l.length) : l.countP (fun e => cmp e l[i] == .lt) = i := by
  apply countP_eq_of_getElem_iff (by omega)
  intro j hj
  rw [beq_iff_eq, h.compare_getElem hj hi, Nat.compare_eq_lt]

theorem countP_ne_gt_getElem [OrientedCmp cmp] {l : List α} (h : Ascending cmp l) {i : Nat}
    (hi : i < l.length) : l.countP (fun e => cmp e l[i] != .gt) = i + 1 := by
  apply countP_eq_of_getElem_iff hi
  intro j hj
  rw [bne_iff_ne, h.compare_getElem hj hi, ne_eq, Nat.compare_eq_gt]
  omega

/-- An element equal to none goes in at its place. -/
theorem insertIdx [TransCmp cmp] {l : List α} (h : Ascending cmp l) {x : α}
    (hx : ∀ e ∈ l, cmp e x ≠ .eq) :
    Ascending cmp (l.insertIdx (l.countP fun e => cmp e x == .lt) x) := by
  -- cut at the place of `x`: the left part is below it, and the right part above
  have hcuts := (lower_lt x).cuts h
  have hsplit := List.takeWhile_append_dropWhile (p := fun e => cmp e x == .lt) (l := l)
  have hbelow : ∀ e ∈ l.takeWhile (fun e => cmp e x == .lt), cmp e x = .lt := fun e he =>
    beq_iff_eq.mp (List.all_eq_true.mp List.all_takeWhile e he)
  have habove : ∀ e ∈ l.dropWhile (fun e => cmp e x == .lt), cmp x e = .lt := by
    intro e he
    have hlt : cmp e x ≠ .lt := by simpa using mem_dropWhile hcuts he
    have heq := hx e ((List.dropWhile_sublist _).mem he)
    apply OrientedCmp.lt_of_gt
    cases hc : cmp e x
    · exact absurd hc hlt
    · exact absurd hc heq
    · rfl
  rw [insertIdx_countP hcuts]
  rw [Ascending, ← hsplit, List.pairwise_append] at h
  obtain ⟨hleft, hright, hcross⟩ := h
  refine List.pairwise_append.mpr ⟨hleft, List.pairwise_cons.mpr ⟨habove, hright⟩, ?_⟩
  intro a ha b hb
  rcases List.mem_cons.mp hb with rfl | hb
  · exact hbelow a ha
  · exact hcross a ha b hb

/-- An element may stand in for one that compares equal. -/
theorem set [TransCmp cmp] {l : List α} (h : Ascending cmp l) {i : Nat} {e x : α}
    (he : l[i]? = some e) (hex : cmp e x = .eq) : Ascending cmp (l.set i x) := by
  obtain ⟨hi, rfl⟩ := List.getElem?_eq_some_iff.mp he
  rw [Ascending, List.pairwise_iff_getElem]
  intro j k hj hk hjk
  rw [List.length_set] at hj hk
  have hlt : cmp l[j] l[k] = .lt := List.pairwise_iff_getElem.mp h j k hj hk hjk
  rw [List.getElem_set, List.getElem_set]
  split <;> split
  · omega
  · next hij _ =>
    subst hij
    rw [← TransCmp.congr_left hex]
    exact hlt
  · next _ hik =>
    subst hik
    rw [← TransCmp.congr_right hex]
    exact hlt
  · exact hlt

theorem eraseIdx {l : List α} (h : Ascending cmp l) (i : Nat) : Ascending cmp (l.eraseIdx i) :=
  List.Pairwise.sublist (List.eraseIdx_sublist l i) h

/-- The first element that fails a condition is the least that does. -/
theorem getElem?_countP [TransCmp cmp] {l : List α} (h : Ascending cmp l) {p : α → Bool}
    (hp : Cuts p l) {x : α} (hx : x ∈ l) (hpx : p x = false)
    (hleast : ∀ y ∈ l, p y = false → cmp y x ≠ .lt) : l[l.countP p]? = some x := by
  obtain ⟨i, hi, rfl⟩ := List.getElem_of_mem hx
  have hle : l.countP p ≤ i := by
    rw [Bool.eq_false_iff, ne_eq, getElem_iff_lt_countP hp hi] at hpx
    omega
  have hk : l.countP p < l.length := by omega
  -- the element at the cut fails the condition as well, so it is not below `x`
  have hge := hleast _ (List.getElem_mem hk)
    (Bool.eq_false_iff.mpr fun hpk => by rw [getElem_iff_lt_countP hp hk] at hpk; omega)
  rw [h.compare_getElem hk hi, ne_eq, Nat.compare_eq_lt] at hge
  rw [List.getElem?_eq_some_iff]
  exact ⟨hk, by congr; omega⟩

/-- The last element that meets a condition is the greatest that does. -/
theorem getElem?_countP_pred [TransCmp cmp] {l : List α} (h : Ascending cmp l) {p : α → Bool}
    (hp : Cuts p l) {x : α} (hx : x ∈ l) (hpx : p x = true)
    (hgreatest : ∀ y ∈ l, p y = true → cmp y x ≠ .gt) :
    0 < l.countP p ∧ l[l.countP p - 1]? = some x := by
  obtain ⟨i, hi, rfl⟩ := List.getElem_of_mem hx
  have hlt : i < l.countP p := (getElem_iff_lt_countP hp hi).mp hpx
  have hle : l.countP p ≤ l.length := List.countP_le_length
  have hk : l.countP p - 1 < l.length := by omega
  have hge := hgreatest _ (List.getElem_mem hk) ((getElem_iff_lt_countP hp hk).mpr (by omega))
  rw [h.compare_getElem hk hi, ne_eq, Nat.compare_eq_gt] at hge
  refine ⟨by omega, ?_⟩
  rw [List.getElem?_eq_some_iff]
  exact ⟨hk, by congr; omega⟩

/-- In an ascending list the only place of an element that compares equal is at the cut. -/
theorem getElem?_countP_filter [TransCmp cmp] {l : List α} (h : Ascending cmp l) (x : α) :
    l[l.countP fun e => cmp e x == .lt]?.filter (fun e => cmp e x == .eq) =
      l.find? fun e => cmp e x == .eq := by
  induction l with
  | nil => rfl
  | cons a l ih =>
      obtain ⟨ha, hl⟩ := List.pairwise_cons.mp h
      by_cases hax : cmp a x = .lt
      · rw [List.countP_cons_of_pos (by simp [hax]), List.getElem?_cons_succ,
          List.find?_cons_of_neg (by simp [hax])]
        exact ih hl
      · -- all that comes behind is greater
        have habove : ∀ b ∈ l, cmp b x = .gt := fun b hb =>
          OrientedCmp.gt_of_lt (TransCmp.lt_of_isLE_of_lt
            (OrientedCmp.isLE_of_isGE (Ordering.isGE_iff_ne_lt.mpr hax)) (ha b hb))
        have hzero : (a :: l).countP (fun e => cmp e x == .lt) = 0 := by
          rw [List.countP_eq_zero, List.forall_mem_cons]
          exact ⟨by simpa using hax, fun b hb => by simp [habove b hb]⟩
        have hnone : l.find? (fun e => cmp e x == .eq) = none := by
          rw [List.find?_eq_none]
          exact fun b hb => by simp [habove b hb]
        rw [hzero, List.getElem?_cons_zero, Option.filter_some, List.find?_cons, hnone]
        cases cmp a x == .eq <;> rfl

end Ascending

/-! ### Bisection -/

namespace Bisection

variable {holds : Nat → Bool} {k : Nat}

/-- Narrowing ends at most one place before the place where the condition stops to hold. -/
theorem narrow_spec (h : ∀ i, holds i = decide (i < k)) {fuel size base : Nat} (hfuel : size ≤ fuel)
    (hbase : base ≤ k) (hk : k ≤ base + size) (hpos : 0 < size) :
    narrow holds fuel size base ≤ k ∧ k ≤ narrow holds fuel size base + 1 := by
  induction fuel generalizing size base with
  | zero => omega
  | succ fuel ih =>
      rw [narrow]
      split
      · omega
      · simp only [h, decide_eq_true_eq]
        -- the half that is kept still has the place in it
        split
        · exact ih (by omega) (by omega) (by omega) (by omega)
        · exact ih (by omega) (by omega) (by omega) (by omega)

theorem bisect_eq (h : ∀ i, holds i = decide (i < k)) {start size : Nat} (hstart : start ≤ k)
    (hk : k ≤ start + size) : bisect holds start size = k := by
  unfold bisect
  split
  · omega
  · obtain ⟨hle, hlt⟩ := narrow_spec h (Nat.le_refl size) hstart hk (by omega)
    simp only [h, decide_eq_true_eq]
    split <;> omega

/-- **Bisection counts the elements before the cut, whatever the seam.** -/
theorem splitPoint_eq_countP {p : α → Bool} {l : List α} (h : Cuts p l) (seam : Nat) :
    splitPoint l seam p = l.countP p := by
  have hle : l.countP p ≤ l.length := List.countP_le_length
  have holds : ∀ i, (l.toArray[i]?).any p = decide (i < l.countP p) := by
    intro i
    rw [List.getElem?_toArray]
    by_cases hi : i < l.length
    · rw [List.getElem?_eq_getElem hi, Option.any_some, Bool.eq_iff_iff, decide_eq_true_eq]
      exact getElem_iff_lt_countP h hi
    · rw [List.getElem?_eq_none (by omega), Option.any_none, eq_comm, decide_eq_false_iff_not]
      omega
  -- the seam tells in which half the cut is, and bisection starts with that half
  rw [splitPoint]
  simp only [List.size_toArray, holds seam, decide_eq_true_eq]
  split
  · exact bisect_eq holds (by omega) (by omega)
  · exact bisect_eq holds (by omega) (by omega)

theorem narrow_eq_or (holds : Nat → Bool) (fuel size base : Nat) :
    narrow holds fuel size base = base ∨ holds (narrow holds fuel size base) = true := by
  induction fuel generalizing size base with
  | zero => exact .inl rfl
  | succ fuel ih =>
      rw [narrow]
      split
      · exact .inl rfl
      · dsimp only
        split
        next hmiddle =>
          rcases ih (size - size / 2) (base + size / 2) with heq | hholds
          · exact .inr (by rwa [heq])
          · exact .inr hholds
        next => exact ih _ _

/-- Whatever the condition is, bisection ends at a place of the list or right behind it. -/
theorem splitPoint_le (l : List α) (seam : Nat) (p : α → Bool) :
    splitPoint l seam p ≤ l.length := by
  have hlt : ∀ i, (l.toArray[i]?).any p = true → i < l.length := by
    intro i hi
    by_contra hge
    rw [List.getElem?_toArray, List.getElem?_eq_none (by omega)] at hi
    cases hi
  have hbisect : ∀ start size, start ≤ l.length →
      bisect (fun i => (l.toArray[i]?).any p) start size ≤ l.length := by
    intro start size hstart
    unfold bisect
    split
    · exact hstart
    · dsimp only
      split
      next hlast => exact hlt _ hlast
      next hlast =>
        rcases narrow_eq_or (fun i => (l.toArray[i]?).any p) size size start with heq | hholds
        · rwa [heq]
        · exact absurd hholds hlast
  unfold splitPoint
  dsimp only
  split
  next hseam => exact hbisect _ _ (Nat.le_of_lt (hlt _ hseam))
  next => exact hbisect _ _ (Nat.zero_le _)

end Bisection
end FeatureIndex
