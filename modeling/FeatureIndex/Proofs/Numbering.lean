import FeatureIndex.Proofs.Hierarchy

/-!
# The walk over the hierarchy

`Declarations.numbering` walks over the hierarchy with a stack of frames, and numbers the types on
its way. `Walking` is the invariant of its loop: what has been listed and what the stack still asks
for make up the list of the root; a type that was entered has its place in that list written down,
and one that was left has the end of its stretch; and each frame that leaves a type comes up when
exactly the types before that end have been listed.

One step keeps the invariant (`Walking.step`) and is one step less to do (`Walking.work_step`), so
that the walk ends with every type listed and numbered (`Rooted.walking_numbering`).
-/

namespace FeatureIndex.Declarations

variable {d : Declarations} {t u : TypeCode} {n : Numbering} {frame : Frame} {stack : List Frame}

/-! ### What the root stands above -/

theorem Rooted.mem_below_self (h : d.Rooted) (t : TypeCode) : t ∈ d.below t := by
  obtain ⟨k, hk⟩ := Nat.exists_eq_add_one.mpr h.nonempty
  rw [below, hk, subtree]
  exact List.mem_cons_self

theorem Rooted.mem_below_top (h : d.Rooted) : t ∈ d.below .top ↔ t.index < d.types.length := by
  rw [h.mem_below (t := .top) h.nonempty]
  refine ⟨?_, h.above_top t⟩
  intro ht
  cases ht with
  | refl => exact h.nonempty
  | climb hp => exact (h.index_lt hp).2

theorem nodup_codes (d : Declarations) : d.codes.Nodup :=
  List.nodup_range.map fun _ _ hij => TypeCode.mk.inj hij

theorem mem_codes : t ∈ d.codes ↔ t.index < d.types.length := by
  rw [codes, List.mem_map]
  constructor
  · rintro ⟨i, hi, rfl⟩
    exact List.mem_range.mp hi
  · exact fun ht => ⟨t.index, List.mem_range.mpr ht, rfl⟩

/-- **The list of the root holds every declared type exactly once.** -/
theorem Rooted.below_top_perm (h : d.Rooted) : (d.below .top).Perm d.codes := by
  have hbelow := h.nodup_below (t := .top) h.nonempty
  refine (List.perm_ext_iff_of_nodup hbelow d.nodup_codes).mpr ?_
  intro t
  rw [h.mem_below_top, mem_codes]

theorem Rooted.length_below_top (h : d.Rooted) : (d.below .top).length = d.types.length := by
  rw [h.below_top_perm.length_eq, codes, List.length_map, List.length_range]

/-- The place of a type in the list of the root, and the place behind everything below it. -/
def span (d : Declarations) (t : TypeCode) : Nat × Nat :=
  ((d.below .top).idxOf t, (d.below .top).idxOf t + (d.below t).length)

/-! ### What a stack asks for -/

/-- The types that will be listed, in order. -/
def pending (d : Declarations) : List Frame → List TypeCode
  | [] => []
  | .enter t :: stack => d.below t ++ d.pending stack
  | .leave _ :: stack => d.pending stack

/-- The number of steps that will be made. -/
def work (d : Declarations) : List Frame → Nat
  | [] => 0
  | .enter t :: stack => 2 * (d.below t).length + d.work stack
  | .leave _ :: stack => d.work stack + 1

/-- With `k` types listed, each frame that leaves a type will come up at the end of its stretch. -/
def Timely (d : Declarations) : Nat → List Frame → Prop
  | _, [] => True
  | k, .enter t :: stack => d.Timely (k + (d.below t).length) stack
  | k, .leave t :: stack => k = (d.span t).2 ∧ d.Timely k stack

theorem pending_enter (cs : List TypeCode) (stack : List Frame) :
    d.pending (cs.map .enter ++ stack) = cs.flatMap d.below ++ d.pending stack := by
  induction cs with
  | nil => rfl
  | cons c rest ih =>
      rw [List.map_cons, List.cons_append, pending, ih, List.flatMap_cons, List.append_assoc]

theorem work_enter (cs : List TypeCode) (stack : List Frame) :
    d.work (cs.map .enter ++ stack) = 2 * (cs.flatMap d.below).length + d.work stack := by
  induction cs with
  | nil => simp
  | cons c rest ih =>
      rw [List.map_cons, List.cons_append, work, ih, List.flatMap_cons, List.length_append]
      omega

theorem timely_enter (cs : List TypeCode) (stack : List Frame) (k : Nat) :
    d.Timely k (cs.map .enter ++ stack) ↔ d.Timely (k + (cs.flatMap d.below).length) stack := by
  induction cs generalizing k with
  | nil => rfl
  | cons c rest ih =>
      rw [List.map_cons, List.cons_append, Timely, ih, List.flatMap_cons, List.length_append,
        Nat.add_assoc]

/-! ### The invariant -/

/-- Where the walk stands with a stack of frames still to be done. -/
structure Walking (d : Declarations) (stack : List Frame) (n : Numbering) : Prop where
  listed : n.preorder ++ d.pending stack = d.below .top
  timely : d.Timely n.preorder.length stack
  length_firsts : n.firsts.length = d.types.length
  length_pasts : n.pasts.length = d.types.length
  entered : ∀ u ∈ n.preorder, n.firsts[u.index]? = some (d.span u).1
  left : ∀ u ∈ n.preorder, .leave u ∉ stack → n.pasts[u.index]? = some (d.span u).2

namespace Walking

/-- A type that is about to be entered is declared, and has not been listed before. -/
theorem enter_spec (hr : d.Rooted) (h : d.Walking (.enter t :: stack) n) :
    t.index < d.types.length ∧ t ∉ n.preorder ∧ (d.span t).1 = n.preorder.length ∧
      n.step d.children (.enter t) = ((d.childrenOf t).map .enter ++ [.leave t],
        ⟨n.preorder ++ [t], n.firsts.set t.index n.preorder.length, n.pasts⟩) := by
  have hlisted := h.listed
  have ht : t.index < d.types.length := by
    rw [← hr.mem_below_top, ← hlisted, pending]
    simp [hr.mem_below_self t]
  rw [pending, hr.below_eq ht] at hlisted
  have hnodup := hr.nodup_below (t := .top) hr.nonempty
  rw [← hlisted, List.nodup_append] at hnodup
  have hnew : t ∉ n.preorder := fun hin => hnodup.2.2 t hin t (by simp) rfl
  refine ⟨ht, hnew, ?_, ?_⟩
  · rw [span, ← hlisted, List.idxOf_append, if_neg hnew]
    simp
  · have hchildren : (d.children[t.index]?).getD [] = d.childrenOf t := by
      rw [children, codes, List.map_map, List.getElem?_map, List.getElem?_range ht]
      rfl
    rw [Numbering.step, hchildren]

/-- **One step keeps the invariant.** -/
theorem step (hr : d.Rooted) (h : d.Walking (frame :: stack) n) :
    d.Walking ((n.step d.children frame).1 ++ stack) (n.step d.children frame).2 := by
  cases frame with
  | enter t =>
      obtain ⟨ht, hnew, hplace, hstep⟩ := h.enter_spec hr
      have hbelow := hr.below_eq ht
      simp only [hstep, List.append_assoc, List.singleton_append]
      refine ⟨?_, ?_, ?_, h.length_pasts, ?_, ?_⟩
      · -- the type itself is listed, and the rest of its list is asked for
        rw [pending_enter, pending, ← h.listed, pending, hbelow]
        simp
      · -- its own frame comes up behind its children
        have htimely := h.timely
        rw [Timely] at htimely
        rw [timely_enter, Timely, List.length_append, List.length_singleton]
        have hlength : n.preorder.length + 1 + ((d.childrenOf t).flatMap d.below).length =
            n.preorder.length + (d.below t).length := by
          rw [hbelow, List.length_cons]
          omega
        rw [hlength]
        exact ⟨by rw [← hplace]; rfl, htimely⟩
      · rw [List.length_set]
        exact h.length_firsts
      · intro u hu
        rcases List.mem_append.mp hu with hu | hu
        · have hne : t.index ≠ u.index := by
            intro hidx
            have heq : t = u := congrArg TypeCode.mk hidx
            exact hnew (heq ▸ hu)
          rw [List.getElem?_set_ne hne]
          exact h.entered u hu
        · rw [List.mem_singleton.mp hu, List.getElem?_set_self (h.length_firsts ▸ ht), hplace]
      · intro u hu hleave
        rcases List.mem_append.mp hu with hu | hu
        · refine h.left u hu fun hin => hleave ?_
          have hin : .leave u ∈ stack := (List.mem_cons.mp hin).resolve_left nofun
          exact List.mem_append_right _ (List.mem_cons_of_mem _ hin)
        · rw [List.mem_singleton.mp hu] at hleave
          exact absurd hleave (by simp)
  | leave t =>
      refine ⟨h.listed, h.timely.2, h.length_firsts, ?_, h.entered, ?_⟩
      · exact (List.length_set ..).trans h.length_pasts
      · intro u hu hleave
        show (n.pasts.set t.index n.preorder.length)[u.index]? = some (d.span u).2
        by_cases heq : u = t
        · subst heq
          have hlt : u.index < d.types.length := by
            rw [← hr.mem_below_top, ← h.listed]
            exact List.mem_append_left _ hu
          rw [List.getElem?_set_self (h.length_pasts ▸ hlt)]
          exact congrArg some h.timely.1
        · have hne : t.index ≠ u.index := fun hidx => heq (congrArg TypeCode.mk hidx.symm)
          rw [List.getElem?_set_ne hne]
          refine h.left u hu ?_
          rw [List.mem_cons]
          rintro (hcase | hcase)
          · exact heq (Frame.leave.inj hcase)
          · exact hleave hcase

/-- **One step is one step less to do.** -/
theorem work_step (hr : d.Rooted) (h : d.Walking (frame :: stack) n) :
    d.work ((n.step d.children frame).1 ++ stack) + 1 = d.work (frame :: stack) := by
  cases frame with
  | enter t =>
      obtain ⟨ht, -, -, hstep⟩ := h.enter_spec hr
      simp only [hstep, List.append_assoc, List.singleton_append]
      rw [work_enter, work, work, hr.below_eq ht, List.length_cons]
      omega
  | leave t => rfl

/-- With enough fuel the walk leaves nothing undone. -/
theorem walk (hr : d.Rooted) {fuel : Nat} (h : d.Walking stack n) (hfuel : d.work stack ≤ fuel) :
    d.Walking [] (walk d.children fuel stack n) := by
  induction fuel generalizing stack n with
  | zero =>
      cases stack with
      | nil => exact h
      | cons frame stack =>
          have := h.work_step hr
          omega
  | succ fuel ih =>
      cases stack with
      | nil => exact h
      | cons frame stack =>
          rw [← h.work_step hr] at hfuel
          exact ih (h.step hr) (Nat.le_of_succ_le_succ hfuel)

end Walking

/-! ### The numbering -/

/-- **The walk is complete.** -/
theorem Rooted.walking_numbering (h : d.Rooted) : d.Walking [] d.numbering := by
  refine Walking.walk h ⟨?_, trivial, ?_, ?_, nofun, nofun⟩ ?_
  · exact List.append_nil _
  · exact List.length_replicate
  · exact List.length_replicate
  · rw [work, work, h.length_below_top]
    exact Nat.le_refl _

theorem Rooted.preorder_eq (h : d.Rooted) : d.preorder = d.below .top := by
  have hlisted := h.walking_numbering.listed
  rw [pending, List.append_nil] at hlisted
  exact hlisted

/-- **The walk numbers the stretches.** -/
theorem Rooted.spans_eq (h : d.Rooted) :
    d.numbering.firsts.zip d.numbering.pasts = d.codes.map d.span := by
  have hw := h.walking_numbering
  apply List.ext_getElem?
  intro i
  rw [codes, List.map_map, List.getElem?_map]
  by_cases hi : i < d.types.length
  · have hin : (⟨i⟩ : TypeCode) ∈ d.numbering.preorder := by
      rw [show d.numbering.preorder = d.below .top from h.preorder_eq]
      exact h.mem_below_top.mpr hi
    rw [List.getElem?_range hi]
    exact List.getElem?_zip_eq_some.mpr ⟨hw.entered _ hin, hw.left _ hin (by simp)⟩
  · rw [List.getElem?_eq_none, List.getElem?_eq_none]
    · rfl
    · rw [List.length_range]
      omega
    · rw [List.length_zip, hw.length_firsts, hw.length_pasts]
      omega

end FeatureIndex.Declarations
