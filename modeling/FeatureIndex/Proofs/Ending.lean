import FeatureIndex.Proofs.Filtered

/-!
# Walks that end

A walk need not follow a list to be safe to use. `Walk.Ends` says that its states are valid exactly
where they stand at an element, and that each step to one side brings the end on that side nearer
(`count`), however often the direction turned before. It asks nothing of the order of the elements,
so merges may walk lists that are not sorted, or that have elements in common.

Two loops run over a walk: one goes on past rejected elements, one collects what there is.
`Filtered.Skips` and `Walk.Collects` are their runs, without any limit on the number of steps, and
with no run where an element would be looked at that is not there. In a walk that ends both loops
have a run, and it is the one that the definitions with their limits follow (`Ends.skips`,
`Ends.collects`).
-/

namespace FeatureIndex

variable {S : Type} {w : Walk S} {P : S → Prop} {count : Bool → S → Nat} {s t : S}

/-! ### Loops over a walk -/

/-- A run of the loop that goes on past rejected elements. -/
inductive Filtered.Skips (w : Walk S) (accepts : FeatureStructure → Bool) (onward : Step) :
    S → S → Prop
  | outside {s : S} (hv : w.isValid s = false) : Skips w accepts onward s s
  | accepted {s : S} {fs : FeatureStructure} (hv : w.isValid s = true) (he : w.element? s = some fs)
      (hacc : accepts fs = true) : Skips w accepts onward s s
  | rejected {s t : S} {fs : FeatureStructure} (hv : w.isValid s = true)
      (he : w.element? s = some fs) (hrej : accepts fs = false)
      (hrest : Skips w accepts onward (w.step onward s) t) : Skips w accepts onward s t

/-- Going on past rejected elements ends at an accepted one, or at none. -/
theorem Filtered.Skips.accepts {accepts : FeatureStructure → Bool} {onward : Step}
    {fs : FeatureStructure} (h : Skips w accepts onward s t) (hv : w.isValid t = true)
    (he : w.element? t = some fs) : accepts fs = true := by
  induction h with
  | outside hnot => cases hnot.symm.trans hv
  | accepted _ hfs hacc =>
      cases hfs.symm.trans he
      exact hacc
  | rejected _ _ _ _ ih => exact ih hv he

namespace Walk

/-- A run of the loop that collects the element of each state and steps on. -/
inductive Collects (w : Walk S) : S → List FeatureStructure → S → Prop
  | outside {s : S} (hv : w.isValid s = false) : Collects w s [] s
  | element {s t : S} {fs : FeatureStructure} {l : List FeatureStructure}
      (hv : w.isValid s = true) (he : w.element? s = some fs)
      (hrest : Collects w (w.step .next s) l t) : Collects w s (fs :: l) t

/-- With a limit, collecting gives the first elements of the run. -/
theorem Collects.collect_eq {l : List FeatureStructure} (h : w.Collects s l t) (limit : Nat) :
    (w.collect limit s).1 = l.take limit := by
  induction h generalizing limit with
  | outside hv =>
      cases limit with
      | zero => rfl
      | succ limit => rw [collect, hv, List.take_nil]
  | element hv he _ ih =>
      cases limit with
      | zero => rfl
      | succ limit => rw [collect, hv, he, List.take_succ_cons, ← ih]

/-- States that are valid exactly where they stand at an element. `count` says within how many steps
to a side the elements are left: every step counts it down. -/
structure Ends (w : Walk S) (P : S → Prop) (count : Bool → S → Nat) : Prop where
  isValid_eq {s : S} (h : P s) : w.isValid s = (w.element? s).isSome
  step {s : S} (h : P s) (m : Step) : P (w.step m s)
  span_step (m : Step) (s : S) : w.span (w.step m s) = w.span s
  count_le {s : S} (h : P s) (forward : Bool) : count forward s ≤ w.span s
  count_pos {s : S} (h : P s) (hv : w.isValid s = true) (forward : Bool) : 0 < count forward s
  count_step {s : S} (h : P s) (forward : Bool) :
    count forward (w.step (.ahead forward) s) ≤ count forward s - 1

namespace Ends

theorem exists_element (hw : w.Ends P count) (h : P s) (hv : w.isValid s = true) :
    ∃ fs, w.element? s = some fs := by
  rw [hw.isValid_eq h] at hv
  exact Option.isSome_iff_exists.mp hv

theorem isValid_eq_false (hw : w.Ends P count) (h : P s) (forward : Bool)
    (hzero : count forward s = 0) : w.isValid s = false := by
  by_contra hv
  have := hw.count_pos h (Bool.not_eq_false _ ▸ hv) forward
  omega

/-- **Going on to one side leads out of the elements**, and not back in. -/
theorem isValid_iterate (hw : w.Ends P count) (h : P s) (forward : Bool) {n : Nat}
    (hn : w.span s ≤ n) : w.isValid ((w.step (.ahead forward))^[n] s) = false := by
  have hcount : ∀ n, P ((w.step (.ahead forward))^[n] s) ∧
      count forward ((w.step (.ahead forward))^[n] s) ≤ count forward s - n := by
    intro n
    induction n with
    | zero => exact ⟨h, Nat.le_refl _⟩
    | succ n ih =>
        rw [Function.iterate_succ_apply']
        have := hw.count_step ih.1 forward
        exact ⟨hw.step ih.1 _, by omega⟩
  have hle := hw.count_le h forward
  obtain ⟨hP, hleft⟩ := hcount n
  exact hw.isValid_eq_false hP forward (by omega)

/-- **Going on past rejected elements comes to an end** within the limit. -/
theorem skips (hw : w.Ends P count) (h : P s) (accepts : FeatureStructure → Bool) (forward : Bool)
    {budget : Nat} (hbudget : count forward s ≤ budget) :
    Filtered.Skips w accepts (.ahead forward) s
      (Filtered.skip w accepts (.ahead forward) budget s) := by
  induction budget generalizing s with
  | zero => exact .outside (hw.isValid_eq_false h forward (Nat.le_zero.mp hbudget))
  | succ budget ih =>
      rw [Filtered.skip, Filtered.rejected]
      cases hv : w.isValid s with
      | false => exact .outside hv
      | true =>
          obtain ⟨fs, he⟩ := hw.exists_element h hv
          have hstep := hw.count_step h forward
          cases hacc : accepts fs with
          | true =>
              simp only [he, Option.any_some, hacc]
              exact .accepted hv he hacc
          | false =>
              simp only [he, Option.any_some, hacc]
              exact .rejected hv he hacc (ih (hw.step h _) (by omega))

/-- **Collecting comes to an end** within the limit, outside of the elements. -/
theorem collects (hw : w.Ends P count) (h : P s) {limit : Nat} (hlimit : count true s ≤ limit) :
    Collects w s (w.collect limit s).1 (w.collect limit s).2 := by
  induction limit generalizing s with
  | zero => exact .outside (hw.isValid_eq_false h true (Nat.le_zero.mp hlimit))
  | succ limit ih =>
      rw [collect]
      cases hv : w.isValid s with
      | false => exact .outside hv
      | true =>
          obtain ⟨fs, he⟩ := hw.exists_element h hv
          have hstep : count true (w.step .next s) ≤ count true s - 1 := hw.count_step h true
          rw [he]
          exact .element hv he (ih (hw.step h .next) (by omega))

/-- The loop past rejected elements takes steps of the walk only. -/
theorem of_skips (hw : w.Ends P count) (h : P s) {accepts : FeatureStructure → Bool}
    {forward : Bool} (hrun : Filtered.Skips w accepts (.ahead forward) s t) :
    P t ∧ count forward t ≤ count forward s := by
  induction hrun with
  | outside => exact ⟨h, Nat.le_refl _⟩
  | accepted => exact ⟨h, Nat.le_refl _⟩
  | rejected _ _ _ _ ih =>
      obtain ⟨ht, hcount⟩ := ih (hw.step h _)
      have := hw.count_step h forward
      exact ⟨ht, by omega⟩

/-- A walk that ends does so among the states of a property that steps keep. -/
theorem restrict {Q : S → Prop} (hw : w.Ends P count)
    (hstep : ∀ s, P s → Q s → ∀ m, Q (w.step m s)) : w.Ends (fun s => P s ∧ Q s) count where
  isValid_eq h := hw.isValid_eq h.1
  step h m := ⟨hw.step h.1 m, hstep _ h.1 h.2 m⟩
  span_step := hw.span_step
  count_le h := hw.count_le h.1
  count_pos h := hw.count_pos h.1
  count_step h := hw.count_step h.1

/-- Steps lead from placed states to placed ones, of the same span. -/
theorem preserves (hw : w.Ends P count) :
    w.Preserves fun s t => (P s → P t) ∧ w.span t = w.span s where
  refl _ := ⟨id, rfl⟩
  step h m := ⟨fun hs => hw.step (h.1 hs) m, (hw.span_step m _).trans h.2⟩

end Ends
end Walk

/-! ### Filters -/

theorem Step.exists_onward (m : Step) : ∃ forward, m.onward = .ahead forward := by
  cases m with
  | first => exact ⟨true, rfl⟩
  | last => exact ⟨false, rfl⟩
  | next => exact ⟨true, rfl⟩
  | previous => exact ⟨false, rfl⟩

theorem Rebind.exists_onward (r : Rebind) : ∃ forward, r.onward = .ahead forward := by
  cases r with
  | first => exact ⟨true, rfl⟩
  | last => exact ⟨false, rfl⟩
  | toward target => exact ⟨true, rfl⟩

namespace Filtered

variable {f : Filtered S}

/-- **Past rejected elements a filter goes by a run of its loop.** -/
theorem skips_settle (hw : w.Ends P count) (h : P f.base) (forward : Bool) :
    Skips w f.accepts (.ahead forward) f.base (f.settle w (.ahead forward)).base :=
  hw.skips h f.accepts forward (hw.count_le h forward)

theorem placed_settle (hw : w.Ends P count) (h : P f.base) (forward : Bool) :
    P (f.settle w (.ahead forward)).base ∧
      count forward (f.settle w (.ahead forward)).base ≤ count forward f.base :=
  hw.of_skips h (skips_settle hw h forward)

theorem toGo_step (hw : w.Ends P count) (h : P f.base) (forward : Bool) :
    count forward (f.step w (.ahead forward)).base ≤ count forward f.base - 1 := by
  have hbase := hw.count_step h forward
  have honward : (Step.ahead forward).onward = .ahead forward := by cases forward <;> rfl
  have hsettle := placed_settle hw (f := { f with base := w.step (.ahead forward) f.base })
    (hw.step h _) forward
  rw [step, honward]
  exact Nat.le_trans hsettle.2 hbase

end Filtered

end FeatureIndex
